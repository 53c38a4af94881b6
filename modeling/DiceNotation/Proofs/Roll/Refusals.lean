import DiceNotation.Proofs.Roll.Modifiers

/-! What rolling refuses. A roll comes by every part of its formula, the arguments of modifiers
among them, before it has an outcome. So there is an outcome only if each part is known, and a
refusal only if some part is not. -/

namespace DiceNotation

open Nested Play

/-- Whether the fault is about a formula or a modifier that is not known where it stands. -/
def Fault.isRefusal : Fault → Bool
  | .unknownFormula | .unknownModifier .. => true
  | _ => false

/-- Whether a die knows the modifier. -/
def Modifier.isForDice {α : Type} : Modifier α → Bool
  | .unknown => false
  | _ => true

/-- Whether rolling knows the shape of the formula, and the modifiers right inside of it. -/
def Formula.Known (f : Formula) : Prop :=
  match f.shape with
  | .die d => ∀ m ∈ d.mods ++ d.targets, m.isForDice = true
  | .group _ _ mods => ∀ m ∈ mods, m.isForGroups = true
  | .unknown => False
  | _ => True

namespace Play

variable {α β : Type} {t : Table} {n : Nat} {S S' : Prop}

/-- The computation has a result only if `S` holds, and refuses only if it does not. -/
structure Vets (p : Play α) (t : Table) (n : Nat) (S : Prop) : Prop where
  holds : ∀ a m, p t n = (.ok a, m) → S
  fails : ∀ e m, p t n = (.error e, m) → e.isRefusal = true → ¬S

theorem Vets.congr {p : Play α} (h : p.Vets t n S) (hS : S ↔ S') : p.Vets t n S' :=
  propext hS ▸ h

theorem vets_pure (a : α) (hS : S) : (Pure.pure a : Play α).Vets t n S :=
  ⟨fun _ _ _ => hS, fun e m h => by simp at h⟩

theorem vets_fault {e : Fault} (he : e.isRefusal = false) : (fault e : Play α).Vets t n S := by
  refine ⟨fun a m h => by simp at h, fun e' m h hrefusal => ?_⟩
  obtain ⟨⟨⟩, rfl⟩ := Prod.mk.inj h
  simp [he] at hrefusal

theorem vets_refusal {e : Fault} (hS : ¬S) : (fault e : Play α).Vets t n S :=
  ⟨fun a m h => by simp at h, fun _ _ _ _ => hS⟩

theorem vets_step {f : Table → Nat → Except Fault α × Nat} (hS : S)
    (h : ∀ e m, f t n = (.error e, m) → e.isRefusal = false) : (step f).Vets t n S := by
  refine ⟨fun _ _ _ => hS, fun e m hstep hrefusal => ?_⟩
  rw [h e m hstep] at hrefusal
  cases hrefusal

/-- What comes after a result may rely on what the computation gives. -/
theorem Vets.bind {p : Play α} {f : α → Play β} (h : p.Vets t n S)
    (hf : p.Gives t n fun a m => (f a).Vets t m S') : (p >>= f).Vets t n (S ∧ S') := by
  constructor
  · intro b m hb
    rw [bind_run] at hb
    split at hb
    · exact ⟨h.holds _ _ ‹_›, (hf _ _ ‹_›).holds b m hb⟩
    · simp at hb
  · intro e m he hrefusal hboth
    rw [bind_run] at he
    split at he
    · exact (hf _ _ ‹_›).fails e m he hrefusal hboth.2
    · obtain ⟨⟨⟩, rfl⟩ := Prod.mk.inj he
      exact h.fails _ _ ‹_› hrefusal hboth.1

theorem Vets.map {p : Play α} (h : p.Vets t n S) (f : α → β) : (f <$> p).Vets t n S := by
  rw [map_eq_pure_bind]
  exact (h.bind ((gives_trivial p).mono fun a m _ => vets_pure (f a) trivial)).congr (iff_of_eq (and_true S))

/-- A step that has nothing to refuse. -/
theorem Vets.then {p : Play α} {f : α → Play β} (h : p.Vets t n True)
    (hf : p.Gives t n fun a m => (f a).Vets t m S) : (p >>= f).Vets t n S :=
  (h.bind hf).congr (iff_of_eq (true_and S))

theorem vets_table : table.Vets t n True :=
  ⟨fun _ _ _ => trivial, fun e m h => by simp [table] at h⟩

theorem vets_throwCount (count : Number) : (throwCount count).Vets t n True := by
  refine vets_table.then fun u m _ => ?_
  dsimp only
  split
  · exact vets_fault rfl
  · exact vets_pure _ trivial

theorem vets_sidesOf (count : Number) : (sidesOf count).Vets t n True := by
  unfold sidesOf
  split
  · exact vets_fault rfl
  · exact vets_pure _ trivial

theorem vets_combine (op : Operator) (a b : Number) : (combine op a b).Vets t n True := by
  unfold combine
  split
  · split
    · exact vets_fault rfl
    · exact vets_pure _ trivial
  · split
    · exact vets_fault rfl
    · exact vets_pure _ trivial
  · exact vets_pure _ trivial

theorem vets_transform (name : String) (value : Number) :
    (transform name value).Vets t n True := by
  refine vets_table.then fun u m _ => ?_
  dsimp only
  split
  · exact vets_pure _ trivial
  · exact vets_fault rfl

theorem vets_throwMany (faces : Faces Int64) (k : Nat) : (throwMany faces k).Vets t n True :=
  vets_step trivial fun e m h => by simp at h

theorem vets_throwStage (m : Modifier Number) (ts : List Throw) :
    (throwStage m ts).Vets t n (m.isForDice = true) := by
  cases m with
  | explode mode condition =>
    rw [throwStage]
    refine vets_step rfl fun e k h => ?_
    obtain rfl := (Stage.explode_error h).1
    rfl
  | reroll once condition =>
    rw [throwStage]
    refine vets_step rfl fun e k h => ?_
    rcases (Stage.reroll_error h).1 with rfl | rfl <;> rfl
  | unknown => exact vets_refusal (by simp [Modifier.isForDice])
  | _ => exact vets_pure _ rfl

theorem vets_entryStage {m : Modifier Number} (h : m.isForGroups = true) (es : List Entry) :
    (entryStage m es).Vets t n True := by
  cases m with
  | keep | drop | success | failure => exact vets_pure _ trivial
  | _ => cases h

end Play

theorem Modifier.isForDice_kind {α : Type} (m : Modifier α) : m.kind.isForDice = m.isForDice := by
  cases m <;> rfl

theorem Modifier.isForGroups_kind {α : Type} (m : Modifier α) :
    m.kind.isForGroups = m.isForGroups := by
  cases m <;> rfl

section Lists

variable {table : Table} {S : Formula → Prop} {n : Nat}

theorem vets_rollMembers {fs : List Formula} (h : ∀ f ∈ fs, ∀ n, f.roll.Vets table n (S f))
    (order : Nat) : (rollMembers fs order).Vets table n (∀ f ∈ fs, S f) := by
  induction fs generalizing order n with
  | nil => exact vets_pure _ (List.forall_mem_nil S)
  | cons f fs ih =>
    obtain ⟨hf, hfs⟩ := List.forall_mem_cons.mp h
    simp only [rollMembers, bind_pure_comp, List.forall_mem_cons]
    exact (hf n).bind fun o k _ => (ih hfs (order + 1)).map _

theorem vets_rollDiceTail {tail : List (Sign × Formula)}
    (h : ∀ f ∈ tail.map Prod.snd, ∀ n, f.roll.Vets table n (S f)) (value : Number) (order : Nat) :
    (rollDiceTail tail value order).Vets table n (∀ f ∈ tail.map Prod.snd, S f) := by
  induction tail generalizing value order n with
  | nil => exact vets_pure _ (List.forall_mem_nil S)
  | cons t tail ih =>
    obtain ⟨op, f⟩ := t
    obtain ⟨hf, htail⟩ := List.forall_mem_cons.mp h
    simp only [rollDiceTail, bind_pure_comp, List.map_cons, List.forall_mem_cons]
    exact (hf n).bind fun o k _ => (ih htail _ (order + 1)).map _

theorem vets_rollMathTail {tail : List (Operator × Formula)}
    (h : ∀ f ∈ tail.map Prod.snd, ∀ n, f.roll.Vets table n (S f)) (value : Number) (order : Nat) :
    (rollMathTail tail value order).Vets table n (∀ f ∈ tail.map Prod.snd, S f) := by
  induction tail generalizing value order n with
  | nil => exact vets_pure _ (List.forall_mem_nil S)
  | cons t tail ih =>
    obtain ⟨op, f⟩ := t
    obtain ⟨hf, htail⟩ := List.forall_mem_cons.mp h
    simp only [rollMathTail, bind_pure_comp, List.map_cons, List.forall_mem_cons]
    exact (hf n).bind fun o k _ => (vets_combine op _ _).then fun v k _ =>
      (ih htail v (order + 1)).map _

theorem vets_rollFaces {faces : Faces Formula}
    (h : ∀ f ∈ faces.arguments, ∀ n, f.roll.Vets table n (S f)) :
    (rollFaces faces).Vets table n (∀ f ∈ faces.arguments, S f) := by
  cases faces with
  | fate => exact vets_pure _ (List.forall_mem_nil S)
  | sides count =>
    simp only [rollFaces, bind_pure_comp, Faces.arguments, List.forall_mem_singleton]
    refine ((h count List.mem_cons_self n).bind fun o k _ => ?_).congr (iff_of_eq (and_true _))
    exact (vets_sidesOf o.value).map _

theorem vets_rollTarget {t : Target Formula} (h : ∀ n, t.value.roll.Vets table n (S t.value)) :
    (rollTarget t).Vets table n (S t.value) := by
  obtain ⟨relation, value⟩ := t
  simp only [rollTarget, bind_pure_comp]
  exact (h n).map _

theorem vets_rollOptionalTarget {t : Option (Target Formula)}
    (h : ∀ f ∈ t.toList.map Target.value, ∀ n, f.roll.Vets table n (S f)) :
    (rollOptionalTarget t).Vets table n (∀ f ∈ t.toList.map Target.value, S f) := by
  cases t with
  | none => exact vets_pure _ (List.forall_mem_nil S)
  | some t =>
    simp only [rollOptionalTarget, bind_pure_comp, Option.toList_some, List.map_cons, List.map_nil,
      List.forall_mem_singleton]
    exact (vets_rollTarget (h t.value List.mem_cons_self)).map _

theorem vets_rollModifier {m : Modifier Formula}
    (h : ∀ f ∈ m.arguments, ∀ n, f.roll.Vets table n (S f)) :
    (rollModifier m).Vets table n (∀ f ∈ m.arguments, S f) := by
  cases m with
  | keep _ count | drop _ count =>
    simp only [rollModifier, bind_pure_comp, Modifier.arguments, List.forall_mem_singleton]
    exact (h count List.mem_cons_self n).map _
  | success t | failure t | critical t | criticalFailure t =>
    simp only [rollModifier, bind_pure_comp, Modifier.arguments, List.forall_mem_singleton]
    exact (vets_rollTarget (h t.value List.mem_cons_self)).map _
  | explode mode t | reroll once t =>
    simp only [rollModifier, bind_pure_comp]
    exact (vets_rollOptionalTarget h).map _
  | unknown => exact vets_pure _ (List.forall_mem_nil S)

theorem vets_rollMods {ms : List (Modifier Formula)}
    (h : ∀ m ∈ ms, ∀ f ∈ m.arguments, ∀ n, f.roll.Vets table n (S f)) (ts : List Throw) :
    (rollMods ms ts).Vets table n
      (∀ m ∈ ms, m.isForDice = true ∧ ∀ f ∈ m.arguments, S f) := by
  induction ms generalizing ts n with
  | nil => exact vets_pure _ (List.forall_mem_nil _)
  | cons m ms ih =>
    obtain ⟨hm, hms⟩ := List.forall_mem_cons.mp h
    have hrest : ∀ m' k, m'.kind = m.kind →
        (throwStage m' ts >>= rollMods ms).Vets table k (m.isForDice = true ∧
          ∀ m ∈ ms, m.isForDice = true ∧ ∀ f ∈ m.arguments, S f) := by
      intro m' k hkind
      rw [← m.isForDice_kind, ← hkind, m'.isForDice_kind]
      exact (vets_throwStage m' ts).bind fun us k _ => ih hms us
    simp only [rollMods, List.forall_mem_cons]
    exact ((vets_rollModifier hm).bind ((gives_rollModifier_kind m).mono hrest)).congr (by tauto)

theorem vets_rollGroupMods {ms : List (Modifier Formula)}
    (h : ∀ m ∈ ms, ∀ f ∈ m.arguments, ∀ n, f.roll.Vets table n (S f)) (es : List Entry) :
    (rollGroupMods ms es).Vets table n
      (∀ m ∈ ms, m.isForGroups = true ∧ ∀ f ∈ m.arguments, S f) := by
  induction ms generalizing es n with
  | nil => exact vets_pure _ (List.forall_mem_nil _)
  | cons m ms ih =>
    obtain ⟨hm, hms⟩ := List.forall_mem_cons.mp h
    rw [rollGroupMods]
    split
    · rename_i hunknown
      refine vets_refusal fun hall => ?_
      simp [(hall m List.mem_cons_self).1] at hunknown
    · rename_i hknown
      replace hknown : m.isForGroups = true := by simpa using hknown
      have hrest : ∀ m' k, m'.kind = m.kind → (entryStage m' es >>= rollGroupMods ms).Vets table k
          (∀ m ∈ ms, m.isForGroups = true ∧ ∀ f ∈ m.arguments, S f) := by
        intro m' k hkind
        rw [← m.isForGroups_kind, ← hkind, m'.isForGroups_kind] at hknown
        exact (vets_entryStage hknown es).then fun es k _ => ih hms es
      simp only [List.forall_mem_cons, hknown, true_and]
      exact (vets_rollModifier hm).bind ((gives_rollModifier_kind m).mono hrest)

theorem vets_rollMatching {matching : Option (Matching Formula)}
    (h : ∀ f ∈ matching.toList.flatMap Matching.arguments, ∀ n, f.roll.Vets table n (S f)) :
    (rollMatching matching).Vets table n
      (∀ f ∈ matching.toList.flatMap Matching.arguments, S f) := by
  cases matching with
  | none => exact vets_pure _ (List.forall_mem_nil S)
  | some matching =>
    obtain ⟨least, counted, filter⟩ := matching
    rw [Option.toList_some, List.flatMap_singleton, Matching.arguments] at h ⊢
    obtain ⟨hleast, hfilter⟩ := List.forall_mem_cons.mp h
    simp only [rollMatching, bind_pure_comp, List.forall_mem_cons]
    exact (hleast n).bind fun o k _ => (vets_rollOptionalTarget hfilter).map _

end Lists

section Formulas

variable {table : Table}

/-- Whether a formula can be rolled depends on its parts, and on nothing that is rolled. -/
def Formula.Supported (f : Formula) : Prop :=
  ∀ g ∈ parts f, g.Known

theorem Formula.supported_iff (f : Formula) :
    f.Supported ↔ f.Known ∧ (∀ g ∈ f.operands, g.Supported) ∧ ∀ g ∈ f.arguments, g.Supported := by
  rw [Supported, forall_parts_iff, children_eq, List.forall_mem_append]
  rfl

theorem vets_of_shape {shape : Shape} {label : Option String} {n : Nat} {S : Prop}
    (h : shape.roll.Vets table n S) : (Formula.roll ⟨shape, label⟩).Vets table n S := by
  simp only [Formula.roll, bind_pure_comp]
  exact h.map _

theorem vets_rollDie {d : Die Formula} {S : Formula → Prop} {n : Nat}
    (hcount : ∀ n, d.count.roll.Vets table n (S d.count))
    (hfaces : ∀ f ∈ d.faces.arguments, ∀ n, f.roll.Vets table n (S f))
    (hmods : ∀ m ∈ d.mods ++ d.targets, ∀ f ∈ m.arguments, ∀ n, f.roll.Vets table n (S f))
    (hmatching : ∀ f ∈ d.matching.toList.flatMap Matching.arguments, ∀ n,
      f.roll.Vets table n (S f)) :
    (Shape.roll (.die d)).Vets table n (S d.count ∧ (∀ f ∈ d.faces.arguments, S f) ∧
      (∀ m ∈ d.mods ++ d.targets, m.isForDice = true ∧ ∀ f ∈ m.arguments, S f) ∧
      ∀ f ∈ d.matching.toList.flatMap Matching.arguments, S f) := by
  rw [roll_die]
  refine (hcount n).bind fun count k _ => (vets_throwCount count.value).then fun size k _ => ?_
  refine (vets_rollFaces hfaces).bind fun r k _ => ?_
  refine Vets.bind ?_ fun throws k _ => (vets_rollMatching hmatching).map _
  exact (vets_throwMany r.2 size).then fun ts k _ => vets_rollMods hmods ts

theorem vets_rollGroup {first : Formula} {others : List Formula} {mods : List (Modifier Formula)}
    {S : Formula → Prop} {n : Nat} (hfirst : ∀ n, first.roll.Vets table n (S first))
    (hothers : ∀ f ∈ others, ∀ n, f.roll.Vets table n (S f))
    (hmods : ∀ m ∈ mods, ∀ f ∈ m.arguments, ∀ n, f.roll.Vets table n (S f)) :
    (Shape.roll (.group first others mods)).Vets table n (S first ∧ (∀ f ∈ others, S f) ∧
      ∀ m ∈ mods, m.isForGroups = true ∧ ∀ f ∈ m.arguments, S f) := by
  simp only [Shape.roll, bind_pure_comp]
  refine (hfirst n).bind fun o k _ => (vets_rollMembers hothers 1).bind fun os k _ => ?_
  split
  · rename_i hempty
    rw [List.isEmpty_iff.mp hempty]
    exact vets_pure _ (List.forall_mem_nil _)
  · exact (vets_rollGroupMods hmods _).map _

/-- A formula has an outcome only if all its parts are known, and is refused only if some part is
not. -/
theorem vets_roll (f : Formula) (n : Nat) : f.roll.Vets table n f.Supported := by
  induction f using Nested.induct generalizing n with
  | step f ih =>
    have hoperands : ∀ g ∈ f.operands, ∀ n, g.roll.Vets table n g.Supported :=
      fun g hg => ih g (List.mem_append_left _ hg)
    have harguments : ∀ g ∈ f.arguments, ∀ n, g.roll.Vets table n g.Supported :=
      fun g hg => ih g (List.mem_append_right _ hg)
    clear ih
    simp only [Formula.supported_iff f]
    obtain ⟨shape, label⟩ := f
    refine vets_of_shape ?_
    cases shape with
    | number value => exact vets_pure _ (by simp [Formula.Known])
    | die d =>
      obtain ⟨hcount, hfaces⟩ := List.forall_mem_cons.mp hoperands
      refine (vets_rollDie hcount hfaces (fun m hm g hg => ?_) fun g hg => ?_).congr ?_
      · exact harguments g (List.mem_append_left _ (List.mem_flatMap.mpr ⟨m, hm, hg⟩))
      · exact harguments g (List.mem_append_right _ hg)
      · simp only [Formula.Known, Formula.operands, Formula.arguments, Formula.modifiers,
          Formula.matching?, List.forall_mem_cons, List.forall_mem_append, List.forall_mem_flatMap]
        grind
    | group first others mods =>
      obtain ⟨hfirst, hothers⟩ := List.forall_mem_cons.mp hoperands
      refine (vets_rollGroup hfirst hothers fun m hm g hg => ?_).congr ?_
      · exact harguments g (List.mem_append_left _ (List.mem_flatMap.mpr ⟨m, hm, hg⟩))
      · simp only [Formula.Known, Formula.operands, Formula.arguments, Formula.modifiers,
          Formula.matching?, List.forall_mem_cons, List.forall_mem_append, List.forall_mem_flatMap]
        grind
    | diceSum head tail =>
      obtain ⟨hhead, htail⟩ := List.forall_mem_cons.mp hoperands
      simp only [Shape.roll, bind_pure_comp]
      exact ((hhead n).bind fun o k _ => (vets_rollDiceTail htail o.value 1).map _).congr
        (by simp [Formula.Known])
    | arithmetic head tail =>
      obtain ⟨hhead, htail⟩ := List.forall_mem_cons.mp hoperands
      simp only [Shape.roll, bind_pure_comp]
      exact ((hhead n).bind fun o k _ => (vets_rollMathTail htail o.value 1).map _).congr
        (by simp [Formula.Known])
    | function f argument =>
      simp only [Shape.roll, bind_pure_comp]
      exact ((hoperands argument List.mem_cons_self n).map _).congr (by simp [Formula.Known])
    | replacement name argument =>
      simp only [Shape.roll, bind_pure_comp]
      exact ((hoperands argument List.mem_cons_self n).bind fun o k _ =>
        (vets_transform name o.value).map _).congr (by simp [Formula.Known])
    | inline inner =>
      exact (hoperands inner List.mem_cons_self n).congr (by simp [Formula.Known])
    | unknown => exact vets_refusal fun h => h.1

end Formulas

end DiceNotation

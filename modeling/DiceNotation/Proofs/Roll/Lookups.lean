import DiceNotation.Formula.Roll
import DiceNotation.Proofs.Formula.Mentions

/-! What a roll looks up. Of the transforms on the table a roll uses those of the replacements that its
formula mentions, and no others; it fails for want of a transform only if one of these has none. -/

namespace DiceNotation

open Play

/-- The tables differ at most in transforms of other names. -/
structure Table.Agrees (S : String → Prop) (t u : Table) : Prop where
  samples : t.samples = u.samples
  limit : t.limit = u.limit
  patience : t.patience = u.patience
  lookup : ∀ name, S name → t.transforms.lookup name = u.transforms.lookup name

namespace Play

variable {α β : Type} {S : String → Prop}

/-- The computation looks up no name but these, and misses a transform only where one of them has
none. -/
structure Heeds (p : Play α) (S : String → Prop) : Prop where
  congr : ∀ t u n, t.Agrees S u → p t n = p u n
  unresolved : ∀ t n name m, p t n = (.error (.unresolved name), m) →
    S name ∧ t.transforms.lookup name = none

theorem heeds_pure (a : α) : (Pure.pure a : Play α).Heeds S :=
  ⟨fun _ _ _ _ => rfl, fun _ _ _ _ h => by simp at h⟩

theorem heeds_fault {e : Fault} (he : ∀ name, e ≠ .unresolved name) :
    (fault e : Play α).Heeds S := by
  refine ⟨fun _ _ _ _ => rfl, fun t n name m h => ?_⟩
  exact absurd (Except.error.inj (Prod.mk.inj h).1) (he name)

/-- A step that looks up nothing. -/
theorem heeds_step {f : Table → Nat → Except Fault α × Nat}
    (hcongr : ∀ t u n, t.Agrees S u → f t n = f u n)
    (hf : ∀ t n name m, f t n ≠ (.error (.unresolved name), m)) : (step f).Heeds S :=
  ⟨hcongr, fun t n name m h => absurd h (hf t n name m)⟩

theorem Heeds.bind {p : Play α} {f : α → Play β} (h : p.Heeds S) (hf : ∀ a, (f a).Heeds S) :
    (p >>= f).Heeds S := by
  refine ⟨fun t u n htu => ?_, fun t n name m hb => ?_⟩
  · rw [bind_run, bind_run, h.congr t u n htu]
    split
    · exact (hf _).congr _ _ _ htu
    · rfl
  · rw [bind_run] at hb
    split at hb
    · exact (hf _).unresolved _ _ _ _ hb
    · obtain ⟨⟨⟩, rfl⟩ := Prod.mk.inj hb
      exact h.unresolved _ _ _ _ ‹_›

theorem Heeds.map {p : Play α} (h : p.Heeds S) (f : α → β) : (f <$> p).Heeds S := by
  rw [map_eq_pure_bind]
  exact h.bind fun a => heeds_pure (f a)

/-- What comes after a look at the table, where that is the same on tables that agree. -/
theorem heeds_table {f : Table → Play α} (hcongr : ∀ t u n, t.Agrees S u → f t t n = f u u n)
    (hf : ∀ t n name m, f t t n = (.error (.unresolved name), m) →
      S name ∧ t.transforms.lookup name = none) : (table >>= f).Heeds S :=
  ⟨hcongr, hf⟩

theorem heeds_throwCount (count : Number) : (throwCount count).Heeds S := by
  refine heeds_table (fun t u n h => ?_) fun t n name m h => ?_
  · rw [h.limit]
    split <;> rfl
  · split at h <;> cases h

theorem heeds_sidesOf (count : Number) : (sidesOf count).Heeds S := by
  unfold sidesOf
  split
  · exact heeds_fault nofun
  · exact heeds_pure _

theorem heeds_combine (op : Operator) (a b : Number) : (combine op a b).Heeds S := by
  unfold combine
  split
  · split
    · exact heeds_fault nofun
    · exact heeds_pure _
  · split
    · exact heeds_fault nofun
    · exact heeds_pure _
  · exact heeds_pure _

theorem heeds_transform {name : String} (hname : S name) (value : Number) :
    (transform name value).Heeds S := by
  refine heeds_table (fun t u n h => ?_) fun t n other m h => ?_
  · rw [h.lookup name hname]
    cases u.transforms.lookup name <;> rfl
  · cases hlookup : t.transforms.lookup name with
    | some f =>
      rw [hlookup] at h
      cases h
    | none =>
      rw [hlookup] at h
      cases h
      exact ⟨hname, hlookup⟩

theorem heeds_throwMany (faces : Faces Int64) (k : Nat) : (throwMany faces k).Heeds S :=
  heeds_step (fun _ _ _ h => by simp only [h.samples]) nofun

theorem heeds_throwStage (m : Modifier Number) (ts : List Throw) : (throwStage m ts).Heeds S := by
  cases m with
  | explode mode condition =>
    rw [throwStage]
    refine heeds_step (fun _ _ _ h => by rw [h.samples]) fun t n name k h => ?_
    cases (Stage.explode_error h).1
  | reroll once condition =>
    rw [throwStage]
    refine heeds_step (fun _ _ _ h => by rw [h.samples, h.patience]) fun t n name k h => ?_
    rcases (Stage.reroll_error h).1 with h | h <;> cases h
  | unknown => exact heeds_fault fun name h => by cases h
  | _ => exact heeds_pure _

theorem heeds_entryStage (m : Modifier Number) (es : List Entry) : (entryStage m es).Heeds S := by
  unfold entryStage
  split
  · exact heeds_pure _
  · exact heeds_fault nofun

end Play

section Lists

variable {S : String → Prop}

theorem heeds_rollMembers {fs : List Formula} (h : ∀ f ∈ fs, f.roll.Heeds S) (order : Nat) :
    (rollMembers fs order).Heeds S := by
  induction fs generalizing order with
  | nil => exact heeds_pure _
  | cons f fs ih =>
    obtain ⟨hf, hfs⟩ := List.forall_mem_cons.mp h
    simp only [rollMembers, bind_pure_comp]
    exact hf.bind fun o => (ih hfs (order + 1)).map _

theorem heeds_rollDiceTail {tail : List (Sign × Formula)}
    (h : ∀ f ∈ tail.map Prod.snd, f.roll.Heeds S) (value : Number) (order : Nat) :
    (rollDiceTail tail value order).Heeds S := by
  induction tail generalizing value order with
  | nil => exact heeds_pure _
  | cons t tail ih =>
    obtain ⟨op, f⟩ := t
    obtain ⟨hf, htail⟩ := List.forall_mem_cons.mp h
    simp only [rollDiceTail, bind_pure_comp]
    exact hf.bind fun o => (ih htail _ (order + 1)).map _

theorem heeds_rollMathTail {tail : List (Operator × Formula)}
    (h : ∀ f ∈ tail.map Prod.snd, f.roll.Heeds S) (value : Number) (order : Nat) :
    (rollMathTail tail value order).Heeds S := by
  induction tail generalizing value order with
  | nil => exact heeds_pure _
  | cons t tail ih =>
    obtain ⟨op, f⟩ := t
    obtain ⟨hf, htail⟩ := List.forall_mem_cons.mp h
    simp only [rollMathTail, bind_pure_comp]
    exact hf.bind fun o => (heeds_combine op _ _).bind fun v => (ih htail v (order + 1)).map _

theorem heeds_rollFaces {faces : Faces Formula} (h : ∀ f ∈ faces.arguments, f.roll.Heeds S) :
    (rollFaces faces).Heeds S := by
  cases faces with
  | fate => exact heeds_pure _
  | sides count =>
    simp only [rollFaces, bind_pure_comp]
    exact (h count List.mem_cons_self).bind fun o => (heeds_sidesOf o.value).map _

theorem heeds_rollTarget {t : Target Formula} (h : t.value.roll.Heeds S) :
    (rollTarget t).Heeds S := by
  obtain ⟨relation, value⟩ := t
  simp only [rollTarget, bind_pure_comp]
  exact h.map _

theorem heeds_rollOptionalTarget {t : Option (Target Formula)}
    (h : ∀ f ∈ t.toList.map Target.value, f.roll.Heeds S) : (rollOptionalTarget t).Heeds S := by
  cases t with
  | none => exact heeds_pure _
  | some t =>
    simp only [rollOptionalTarget, bind_pure_comp]
    exact (heeds_rollTarget (h t.value List.mem_cons_self)).map _

theorem heeds_rollModifier {m : Modifier Formula} (h : ∀ f ∈ m.arguments, f.roll.Heeds S) :
    (rollModifier m).Heeds S := by
  cases m with
  | keep _ count | drop _ count =>
    simp only [rollModifier, bind_pure_comp]
    exact (h count List.mem_cons_self).map _
  | success t | failure t | critical t | criticalFailure t =>
    simp only [rollModifier, bind_pure_comp]
    exact (heeds_rollTarget (h t.value List.mem_cons_self)).map _
  | explode mode t | reroll once t =>
    simp only [rollModifier, bind_pure_comp]
    exact (heeds_rollOptionalTarget h).map _
  | unknown => exact heeds_pure _

theorem heeds_rollMods {ms : List (Modifier Formula)}
    (h : ∀ f ∈ ms.flatMap Modifier.arguments, f.roll.Heeds S) (ts : List Throw) :
    (rollMods ms ts).Heeds S := by
  induction ms generalizing ts with
  | nil => exact heeds_pure _
  | cons m ms ih =>
    obtain ⟨hm, hms⟩ := List.forall_mem_append.mp h
    simp only [rollMods]
    exact (heeds_rollModifier hm).bind fun m => (heeds_throwStage m ts).bind fun ts => ih hms ts

theorem heeds_rollGroupMods {ms : List (Modifier Formula)}
    (h : ∀ f ∈ ms.flatMap Modifier.arguments, f.roll.Heeds S) (es : List Entry) :
    (rollGroupMods ms es).Heeds S := by
  induction ms generalizing es with
  | nil => exact heeds_pure _
  | cons m ms ih =>
    obtain ⟨hm, hms⟩ := List.forall_mem_append.mp h
    rw [rollGroupMods]
    split
    · exact heeds_fault nofun
    · exact (heeds_rollModifier hm).bind fun m => (heeds_entryStage m es).bind fun es => ih hms es

theorem heeds_rollMatching {matching : Option (Matching Formula)}
    (h : ∀ f ∈ matching.toList.flatMap Matching.arguments, f.roll.Heeds S) :
    (rollMatching matching).Heeds S := by
  cases matching with
  | none => exact heeds_pure _
  | some matching =>
    obtain ⟨least, counted, filter⟩ := matching
    rw [Option.toList_some, List.flatMap_singleton, Matching.arguments] at h
    obtain ⟨hleast, hfilter⟩ := List.forall_mem_cons.mp h
    simp only [rollMatching, bind_pure_comp]
    exact hleast.bind fun o => (heeds_rollOptionalTarget hfilter).map _

end Lists

section Formulas

variable {S : String → Prop}

theorem heeds_of_shape {shape : Shape} {label : Option String} (h : shape.roll.Heeds S) :
    (Formula.roll ⟨shape, label⟩).Heeds S := by
  simp only [Formula.roll, bind_pure_comp]
  exact h.map _

theorem heeds_rollDie {d : Die Formula} (hoperands : ∀ f ∈ (Formula.die d).operands, f.roll.Heeds S)
    (harguments : ∀ f ∈ (Formula.die d).arguments, f.roll.Heeds S) :
    (Shape.roll (.die d)).Heeds S := by
  obtain ⟨hcount, hfaces⟩ := List.forall_mem_cons.mp hoperands
  obtain ⟨hmods, hmatching⟩ := List.forall_mem_append.mp harguments
  rw [Formula.die, Formula.bare, Formula.modifiers, List.flatMap_append] at hmods
  obtain ⟨hmods, htargets⟩ := List.forall_mem_append.mp hmods
  simp only [Shape.roll, bind_pure_comp]
  refine hcount.bind fun count => (heeds_throwCount count.value).bind fun size => ?_
  refine (heeds_rollFaces hfaces).bind fun r => (heeds_throwMany r.2 size).bind fun ts => ?_
  refine (heeds_rollMods hmods ts).bind fun ts => (heeds_rollMods htargets ts).bind fun ts => ?_
  exact (heeds_rollMatching hmatching).map _

theorem heeds_rollGroup {first : Formula} {others : List Formula} {mods : List (Modifier Formula)}
    (hfirst : first.roll.Heeds S) (hothers : ∀ f ∈ others, f.roll.Heeds S)
    (hmods : ∀ f ∈ mods.flatMap Modifier.arguments, f.roll.Heeds S) :
    (Shape.roll (.group first others mods)).Heeds S := by
  simp only [Shape.roll, bind_pure_comp]
  refine hfirst.bind fun o => (heeds_rollMembers hothers 1).bind fun os => ?_
  split
  · exact heeds_pure _
  · exact (heeds_rollGroupMods hmods _).map _

/-- A roll looks up the replacements that its formula mentions. -/
theorem heeds_roll (f : Formula) (h : ∀ name ∈ f.mentions, S name) : f.roll.Heeds S := by
  induction f using Nested.induct with
  | step f ih =>
    rw [Formula.mentions_eq] at h
    obtain ⟨hname, hchildren⟩ := List.forall_mem_append.mp h
    have hchild : ∀ g ∈ f.operands ++ f.arguments, g.roll.Heeds S := fun g hg =>
      ih g hg fun name hmentioned => hchildren name (List.mem_flatMap.mpr ⟨g, hg, hmentioned⟩)
    obtain ⟨hoperands, harguments⟩ := List.forall_mem_append.mp hchild
    clear ih h hchildren hchild
    obtain ⟨shape, label⟩ := f
    refine heeds_of_shape ?_
    cases shape with
    | number value => exact heeds_pure _
    | die d => exact heeds_rollDie hoperands harguments
    | group first others mods =>
      obtain ⟨hfirst, hothers⟩ := List.forall_mem_cons.mp hoperands
      exact heeds_rollGroup hfirst hothers (List.forall_mem_append.mp harguments).1
    | diceSum head tail =>
      obtain ⟨hhead, htail⟩ := List.forall_mem_cons.mp hoperands
      simp only [Shape.roll, bind_pure_comp]
      exact hhead.bind fun o => (heeds_rollDiceTail htail o.value 1).map _
    | arithmetic head tail =>
      obtain ⟨hhead, htail⟩ := List.forall_mem_cons.mp hoperands
      simp only [Shape.roll, bind_pure_comp]
      exact hhead.bind fun o => (heeds_rollMathTail htail o.value 1).map _
    | function f argument =>
      simp only [Shape.roll, bind_pure_comp]
      exact (hoperands argument List.mem_cons_self).map _
    | replacement name argument =>
      simp only [Shape.roll, bind_pure_comp]
      exact (hoperands argument List.mem_cons_self).bind fun o =>
        (heeds_transform (hname name List.mem_cons_self) o.value).map _
    | inline inner => exact hoperands inner List.mem_cons_self
    | unknown => exact heeds_fault nofun

end Formulas

end DiceNotation

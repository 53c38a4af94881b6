import DiceNotation.Proofs.Roll.Counts
import DiceNotation.Proofs.Stage.Draws
import Mathlib.Tactic.Ring

/-! The limit of a table bounds all drawing. Whether a roll succeeds or fails, and wherever it fails,
it has drawn no more than its dice may throw, their explosions and rerolls included. -/

namespace DiceNotation

open Play Nested

namespace Formula

/-- What the throws of a die itself may draw. -/
def ownBudget (limit : Nat) (f : Formula) : Nat :=
  if f.isDie then
    limit * 1001 ^ f.modifiers.countP Modifier.isExplosion * 2 ^ f.modifiers.countP Modifier.isReroll
  else 0

/-- What the dice of a formula may draw together, those in arguments included. -/
def budget (limit : Nat) (f : Formula) : Nat :=
  weight (ownBudget limit) f

theorem budget_eq (limit : Nat) (f : Formula) :
    f.budget limit = f.ownBudget limit + ((f.operands ++ f.arguments).map (budget limit)).sum :=
  weight_eq _ f

end Formula

namespace Modifier

/-- The growth of the throws of a die through a list of modifiers. -/
def growths {α : Type} (mods : List (Modifier α)) : Nat :=
  (mods.map growth).prod

@[simp] theorem growths_cons {α : Type} (m : Modifier α) (mods : List (Modifier α)) :
    growths (m :: mods) = m.growth * growths mods :=
  List.prod_cons

theorem growth_pos {α : Type} (m : Modifier α) : 0 < m.growth := by
  cases m <;> simp [growth]

theorem growths_pos {α : Type} (mods : List (Modifier α)) : 0 < growths mods := by
  induction mods with
  | nil => exact Nat.one_pos
  | cons m mods ih =>
    rw [growths_cons]
    exact Nat.mul_pos m.growth_pos ih

theorem growth_kind {α : Type} (m : Modifier α) : m.kind.growth = m.growth := by
  cases m <;> rfl

theorem growths_eq {α : Type} (mods : List (Modifier α)) :
    growths mods = 1001 ^ mods.countP isExplosion * 2 ^ mods.countP isReroll := by
  induction mods with
  | nil => rfl
  | cons m mods ih =>
    rw [growths_cons, ih]
    cases m with
    | explode | reroll =>
      simp only [List.countP_cons, isExplosion, isReroll, growth, Stage.bonusLimit, if_true,
        Bool.false_eq_true, if_false]
      ring
    | keep | drop | success | failure | critical | criticalFailure | unknown =>
      simp [growth]

end Modifier

/-- From any place of the source on, the computation draws at most so many samples if the counts in
its trace are integers. -/
def Bounded {α : Type} (table : Table) (trace : Trace) (p : Play α) (bound : Nat) : Prop :=
  ∀ n, (∀ c ∈ trace table n, c.isInt = true) → (p table n).2 ≤ n + bound

namespace Bounded

variable {α β : Type} {table : Table} {trace first : Trace} {b c : Nat}

theorem pure (a : α) : Bounded table trace (Pure.pure a) b :=
  fun n _ => Nat.le_add_right n b

theorem fault (e : Fault) : Bounded table trace (Play.fault e : Play α) b :=
  fun n _ => Nat.le_add_right n b

theorem map {p : Play α} (h : Bounded table trace p b) (f : α → β) :
    Bounded table trace (f <$> p) b := by
  intro n hn
  have hp := h n hn
  rw [map_eq_pure_bind, bind_run]
  rcases hrun : p table n with ⟨_ | a, m⟩ <;> simpa [hrun] using hp

/-- Bounds add up along a bind; the second one may use what is known of the results of the first. -/
theorem bind_of_gives {p : Play α} {f : α → Play β} {next : α → Trace} {P : α → Prop}
    (hp : Bounded table first p b)
    (hP : ∀ n, (∀ c ∈ first table n, c.isInt = true) → p.Gives table n fun a _ => P a)
    (hf : ∀ a, P a → Bounded table (next a) (f a) c) :
    Bounded table (first.bind p next) (p >>= f) (b + c) := by
  intro n hn
  obtain ⟨hfirst, hnext⟩ := (Trace.forall_mem_bind first p next).mp hn
  have hfirst' := hp n hfirst
  rw [bind_run]
  rcases hrun : p table n with ⟨e | a, m⟩
  · rw [hrun] at hfirst'
    exact Nat.le_trans hfirst' (by omega)
  · have hlast := hf a (hP n hfirst a m hrun) m (hnext a m hrun)
    rw [hrun] at hfirst'
    exact Nat.le_trans hlast (by simp only at hfirst'; omega)

theorem bind {p : Play α} {f : α → Play β} {next : α → Trace} (hp : Bounded table first p b)
    (hf : ∀ a, Bounded table (next a) (f a) c) :
    Bounded table (first.bind p next) (p >>= f) (b + c) :=
  hp.bind_of_gives (P := fun _ => True) (fun _ _ => gives_trivial _) fun a _ => hf a

theorem combine (op : Operator) (x y : Number) : Bounded table trace (combine op x y) b := by
  cases op with
  | div | rem =>
    simp only [Play.combine]
    split
    · exact fault _
    · exact pure _
  | add | sub | mul | pow => exact pure _

/-- What lies on the table is known without a draw. -/
theorem ofTable {f : Table → Play α} (h : ∀ t, Bounded table trace (f t) b) :
    Bounded table trace (Play.table >>= f) b :=
  fun n hn => h table n hn

theorem throwCount (count : Number) : Bounded table trace (throwCount count) b := by
  unfold Play.throwCount
  refine ofTable fun t => ?_
  dsimp only
  split
  · exact fault _
  · exact pure _

theorem transform (name : String) (x : Number) : Bounded table trace (transform name x) b := by
  unfold Play.transform
  refine ofTable fun t => ?_
  split
  · exact pure _
  · exact fault _

end Bounded

variable {table : Table}

/-- The roll of a formula draws no more than its budget. -/
def Formula.RollsBounded (table : Table) (f : Formula) : Prop :=
  Bounded table f.counts f.roll (f.budget table.limit)

open Formula (budget RollsBounded)

theorem bounded_members {fs : List Formula} (h : ∀ f ∈ fs, RollsBounded table f) (order : Nat) :
    Bounded table (membersCounts fs) (rollMembers fs order)
      (fs.map (budget table.limit)).sum := by
  induction fs generalizing order with
  | nil => exact .pure []
  | cons f fs ih =>
    obtain ⟨hf, hfs⟩ := List.forall_mem_cons.mp h
    simp only [rollMembers, membersCounts, bind_pure_comp, List.map_cons, List.sum_cons]
    exact hf.bind fun o => (ih hfs _).map _

theorem bounded_diceTail {tail : List (Sign × Formula)}
    (h : ∀ f ∈ tail.map Prod.snd, RollsBounded table f) (value : Number) (order : Nat) :
    Bounded table (diceTailCounts tail) (rollDiceTail tail value order)
      ((tail.map Prod.snd).map (budget table.limit)).sum := by
  induction tail generalizing value order with
  | nil => exact .pure _
  | cons t tail ih =>
    obtain ⟨op, f⟩ := t
    obtain ⟨hf, htail⟩ := List.forall_mem_cons.mp h
    simp only [rollDiceTail, diceTailCounts, bind_pure_comp, List.map_cons, List.sum_cons]
    exact hf.bind fun o => (ih htail _ _).map _

theorem bounded_mathTail {tail : List (Operator × Formula)}
    (h : ∀ f ∈ tail.map Prod.snd, RollsBounded table f) (value : Number) (order : Nat) :
    Bounded table (mathTailCounts tail value) (rollMathTail tail value order)
      ((tail.map Prod.snd).map (budget table.limit)).sum := by
  induction tail generalizing value order with
  | nil => exact .pure _
  | cons t tail ih =>
    obtain ⟨op, f⟩ := t
    obtain ⟨hf, htail⟩ := List.forall_mem_cons.mp h
    simp only [rollMathTail, mathTailCounts, bind_pure_comp, List.map_cons, List.sum_cons]
    refine hf.bind fun o => ?_
    rw [← Nat.zero_add (tail.map Prod.snd |>.map _).sum]
    exact (Bounded.combine op _ _).bind fun v => (ih htail v _).map _

theorem bounded_optionalTarget {t : Option (Target Formula)}
    (h : ∀ f ∈ t.toList.map Target.value, RollsBounded table f) :
    Bounded table (optionalTargetCounts t) (rollOptionalTarget t)
      ((t.toList.map Target.value).map (budget table.limit)).sum := by
  cases t with
  | none => exact .pure _
  | some t =>
    obtain ⟨relation, f⟩ := t
    simp only [rollOptionalTarget, rollTarget, optionalTargetCounts, targetCounts, bind_pure_comp]
    exact ((h f List.mem_cons_self).map _).map _

theorem bounded_modifier {m : Modifier Formula} (h : ∀ f ∈ m.arguments, RollsBounded table f) :
    Bounded table (modifierCounts m) (rollModifier m)
      (m.arguments.map (budget table.limit)).sum := by
  cases m with
  | keep _ count | drop _ count =>
    simp only [rollModifier, modifierCounts, bind_pure_comp]
    exact (h count List.mem_cons_self).map _
  | success t | failure t | critical t | criticalFailure t =>
    obtain ⟨relation, f⟩ := t
    simp only [rollModifier, rollTarget, modifierCounts, targetCounts, bind_pure_comp]
    exact ((h f List.mem_cons_self).map _).map _
  | explode mode t | reroll once t =>
    simp only [rollModifier, modifierCounts, bind_pure_comp]
    exact (bounded_optionalTarget h).map _
  | unknown => exact .pure _

theorem bounded_faces {faces : Faces Formula} (h : ∀ f ∈ faces.arguments, RollsBounded table f) :
    Bounded table (facesCounts faces) (rollFaces faces)
      (faces.arguments.map (budget table.limit)).sum := by
  cases faces with
  | fate => exact .pure _
  | sides count =>
    have hsides (o : Outcome) : Bounded table .empty (sidesOf o.value) 0 := by
      unfold sidesOf
      split
      · exact .fault _
      · exact .pure _
    simp only [rollFaces, facesCounts, bind_pure_comp]
    rw [← Trace.bind_empty count.counts count.roll]
    exact (h count List.mem_cons_self).bind fun o => (hsides o).map _

theorem bounded_matching {matching : Option (Matching Formula)}
    (h : ∀ f ∈ matching.toList.flatMap Matching.arguments, RollsBounded table f) :
    Bounded table (matchingCounts matching) (rollMatching matching)
      ((matching.toList.flatMap Matching.arguments).map (budget table.limit)).sum := by
  cases matching with
  | none => exact .pure _
  | some matching =>
    obtain ⟨least, counted, filter⟩ := matching
    rw [Option.toList_some, List.flatMap_singleton, Matching.arguments] at h ⊢
    obtain ⟨hleast, hfilter⟩ := List.forall_mem_cons.mp h
    simp only [rollMatching, matchingCounts, bind_pure_comp, List.map_cons, List.sum_cons]
    exact hleast.bind fun o => (bounded_optionalTarget hfilter).map _

theorem bounded_groupMods {mods : List (Modifier Formula)}
    (h : ∀ f ∈ mods.flatMap Modifier.arguments, RollsBounded table f) (es : List Entry) :
    Bounded table (groupModsCounts mods es) (rollGroupMods mods es)
      ((mods.flatMap Modifier.arguments).map (budget table.limit)).sum := by
  induction mods generalizing es with
  | nil => exact .pure _
  | cons m mods ih =>
    rw [List.flatMap_cons, List.forall_mem_append] at h
    rw [groupModsCounts, rollGroupMods]
    split
    · exact .fault _
    · have hstage (m' : Modifier Number) : Bounded table .empty (entryStage m' es) 0 := by
        unfold entryStage
        split
        · exact .pure _
        · exact .fault _
      rw [List.flatMap_cons, List.map_append, List.sum_append]
      refine (bounded_modifier h.1).bind fun m' => ?_
      rw [← Nat.zero_add (List.sum _)]
      exact (hstage m').bind fun es' => ih h.2 es'

theorem growth_bound {n k l stop old new argument arguments g total : Nat} (htotal : 0 < total)
    (hmod : k ≤ n + argument) (hstage : l + old ≤ k + old * g) (hnew : new ≤ old * g)
    (hstop : stop + new ≤ l + arguments + new * total) :
    stop + old ≤ n + (argument + arguments) + old * (g * total) := by
  obtain ⟨rest, rfl⟩ := Nat.exists_eq_add_of_lt htotal
  have hrest : new * rest ≤ old * g * rest := Nat.mul_le_mul_right rest hnew
  have hnow : new * (0 + rest + 1) = new * rest + new := by ring
  have hthen : old * (g * (0 + rest + 1)) = old * g * rest + old * g := by ring
  omega

/-- Stage after stage, the throws and the draws of a die stay within the growth of its modifiers. -/
theorem rollMods_le {mods : List (Modifier Formula)}
    (hmods : ∀ m ∈ mods, m.isUnlimited = false)
    (h : ∀ f ∈ mods.flatMap Modifier.arguments, RollsBounded table f) (ts : List Throw) (n : Nat)
    (hn : ∀ c ∈ modsCounts mods ts table n, c.isInt = true) :
    (rollMods mods ts table n).2 + ts.length ≤
      n + ((mods.flatMap Modifier.arguments).map (budget table.limit)).sum +
        ts.length * Modifier.growths mods := by
  induction mods generalizing ts n with
  | nil => simp [rollMods, Modifier.growths]
  | cons m mods ih =>
    rw [List.flatMap_cons, List.forall_mem_append] at h
    rw [List.forall_mem_cons] at hmods
    obtain ⟨hmod, hrest⟩ := (Trace.forall_mem_bind _ _ _).mp hn
    have hargument := bounded_modifier h.1 n hmod
    have hpos : 0 < Modifier.growths mods := Modifier.growths_pos mods
    rw [rollMods, bind_run, List.flatMap_cons, List.map_append, List.sum_append,
      Modifier.growths_cons]
    rcases hm : rollModifier m table n with ⟨e | m', k⟩
    · rw [hm] at hargument
      have hgrowth : ts.length ≤ ts.length * (m.growth * Modifier.growths mods) :=
        Nat.le_mul_of_pos_right _ (Nat.mul_pos m.growth_pos hpos)
      simp only at hargument ⊢
      omega
    · rw [hm] at hargument
      have hkind : m'.kind = m.kind := gives_rollModifier_kind m m' k hm
      have hm' : m'.isUnlimited = false := by
        rw [← m'.isUnlimited_kind, hkind, m.isUnlimited_kind, hmods.1]
      have hg : m'.growth = m.growth := by rw [← m'.growth_kind, hkind, m.growth_kind]
      obtain ⟨hstage, hnew⟩ := throwStage_le hm' ts table k
      rw [hg] at hstage hnew
      obtain ⟨-, hlast⟩ := (Trace.forall_mem_bind _ _ _).mp (hrest m' k hm)
      simp only [bind_run] at hargument ⊢
      rcases hrun : throwStage m' ts table k with ⟨e | us, l⟩
      · rw [hrun] at hstage
        have hgrowth : ts.length * m.growth ≤ ts.length * (m.growth * Modifier.growths mods) :=
          Nat.mul_le_mul_left _ (Nat.le_mul_of_pos_right _ hpos)
        simp only at hstage ⊢
        omega
      · rw [hrun] at hstage
        exact growth_bound hpos hargument hstage (hnew us l hrun)
          (ih hmods.2 h.2 us l (hlast us l hrun))

theorem bounded_throws {mods : List (Modifier Formula)} {faces : Faces Int64} {size : Nat}
    (hmods : ∀ m ∈ mods, m.isUnlimited = false)
    (h : ∀ f ∈ mods.flatMap Modifier.arguments, RollsBounded table f) (hsize : size ≤ table.limit) :
    Bounded table (Trace.empty.bind (throwMany faces size) (modsCounts mods))
      (throwMany faces size >>= rollMods mods)
      (((mods.flatMap Modifier.arguments).map (budget table.limit)).sum +
        table.limit * Modifier.growths mods) := by
  intro n hn
  have hthrows : throwMany faces size table n =
      (.ok (Throw.drawMany table.samples n faces size), n + size) := rfl
  have hcounts := ((Trace.forall_mem_bind _ _ _).mp hn).2 _ _ hthrows
  have hmany := rollMods_le hmods h _ _ hcounts
  have hgrowth := Nat.mul_le_mul_right (Modifier.growths mods) hsize
  rw [Throw.length_drawMany] at hmany
  rw [bind_ok hthrows]
  omega

theorem gives_throwCount_le {count : Number} (h : count.isInt = true) (n : Nat) :
    (throwCount count).Gives table n fun size _ => size ≤ table.limit := by
  obtain ⟨i, rfl⟩ := Number.exists_of_isInt h
  simp only [throwCount, gives_bind, gives_table]
  split
  · simp
  · rename_i hless
    rw [gives_pure]
    exact Number.le_of_not_less (Bool.not_eq_true _ ▸ hless)

theorem rollsBounded_of_shape {shape : Shape} {label : Option String}
    (h : Bounded table shape.counts shape.roll (budget table.limit ⟨shape, label⟩)) :
    RollsBounded table ⟨shape, label⟩ := by
  rw [RollsBounded, Formula.counts, Formula.roll, bind_pure_comp]
  exact h.map _

theorem rollsBounded_die {d : Die Formula} {label : Option String}
    (hmods : ∀ m ∈ d.mods ++ d.targets, m.isUnlimited = false)
    (hoperands : ∀ f ∈ Formula.operands ⟨.die d, label⟩, RollsBounded table f)
    (harguments : ∀ f ∈ Formula.arguments ⟨.die d, label⟩, RollsBounded table f) :
    RollsBounded table ⟨.die d, label⟩ := by
  obtain ⟨hcount, hfaces⟩ := List.forall_mem_cons.mp hoperands
  rw [Formula.arguments, List.forall_mem_append] at harguments
  have hbudget : budget table.limit ⟨.die d, label⟩ = budget table.limit d.count + (0 +
      ((d.faces.arguments.map (budget table.limit)).sum +
        ((((d.mods ++ d.targets).flatMap Modifier.arguments).map (budget table.limit)).sum +
          table.limit * Modifier.growths (d.mods ++ d.targets) +
            ((d.matching.toList.flatMap Matching.arguments).map (budget table.limit)).sum))) := by
    rw [Formula.budget_eq, Formula.ownBudget, Modifier.growths_eq]
    simp only [Formula.isDie, if_true, Formula.operands, Formula.arguments, Formula.modifiers,
      Formula.matching?, List.map_append, List.sum_append, List.cons_append, List.map_cons,
      List.sum_cons, Nat.mul_assoc]
    omega
  refine rollsBounded_of_shape ?_
  rw [roll_die, counts_die, hbudget]
  refine hcount.bind fun count => ?_
  refine (Bounded.throwCount _).bind_of_gives
    (fun n hn => gives_throwCount_le (hn _ List.mem_cons_self) n) fun size hsize => ?_
  refine (bounded_faces hfaces).bind fun r => ?_
  refine (bounded_throws hmods harguments.1 hsize).bind fun throws => ?_
  exact (bounded_matching harguments.2).map _

/-- What is not a die has the budgets of its parts. -/
theorem rollsBounded_of_parts {shape : Shape} {label : Option String} {b : Nat}
    (h : Bounded table shape.counts shape.roll b) (hdie : Formula.isDie ⟨shape, label⟩ = false)
    (hb : b = ((Formula.operands ⟨shape, label⟩).map (budget table.limit)).sum +
      ((Formula.arguments ⟨shape, label⟩).map (budget table.limit)).sum) :
    RollsBounded table ⟨shape, label⟩ := by
  refine rollsBounded_of_shape ?_
  rw [Formula.budget_eq, Formula.ownBudget, hdie, if_neg Bool.false_ne_true, Nat.zero_add,
    List.map_append, List.sum_append, ← hb]
  exact h

theorem rollsBounded_group {first : Formula} {others : List Formula}
    {mods : List (Modifier Formula)} {label : Option String}
    (hoperands : ∀ f ∈ first :: others, RollsBounded table f)
    (harguments : ∀ f ∈ mods.flatMap Modifier.arguments, RollsBounded table f) :
    RollsBounded table ⟨.group first others mods, label⟩ := by
  obtain ⟨hfirst, hothers⟩ := List.forall_mem_cons.mp hoperands
  refine rollsBounded_of_parts (b := budget table.limit first +
    ((others.map (budget table.limit)).sum +
      ((mods.flatMap Modifier.arguments).map (budget table.limit)).sum)) ?_ rfl
    (by simp [Nat.add_assoc])
  simp only [Shape.roll, Shape.counts]
  refine hfirst.bind fun o => (bounded_members hothers 1).bind fun os => ?_
  split
  · exact .pure _
  · rw [bind_pure_comp]
    exact (bounded_groupMods harguments _).map _

/-- A roll without unlimited rerolls stays within the budget of its formula. -/
theorem rolls_bounded (f : Formula) (hmods : f.Limited) : RollsBounded table f := by
  induction f using Nested.induct with
  | step f ih =>
    have hhere : ∀ m ∈ f.modifiers, m.isUnlimited = false := hmods f (mem_parts_self f)
    have hchildren : ∀ g ∈ children f, RollsBounded table g := fun g hg =>
      ih g hg fun p hp => hmods p (mem_parts_of_mem_children hg hp)
    rw [Formula.children_eq, List.forall_mem_append] at hchildren
    obtain ⟨hoperands, harguments⟩ := hchildren
    clear ih hmods
    obtain ⟨shape, label⟩ := f
    cases shape with
    | die d => exact rollsBounded_die hhere hoperands harguments
    | group first others mods =>
      exact rollsBounded_group hoperands (List.forall_mem_append.mp harguments).1
    | number value => exact rollsBounded_of_shape (.pure _)
    | diceSum head tail =>
      obtain ⟨hhead, htail⟩ := List.forall_mem_cons.mp hoperands
      refine rollsBounded_of_parts (b := budget table.limit head +
        ((tail.map Prod.snd).map (budget table.limit)).sum) ?_ rfl (by simp)
      simp only [Shape.roll, Shape.counts, bind_pure_comp]
      exact hhead.bind fun o => (bounded_diceTail htail o.value 1).map _
    | arithmetic head tail =>
      obtain ⟨hhead, htail⟩ := List.forall_mem_cons.mp hoperands
      refine rollsBounded_of_parts (b := budget table.limit head +
        ((tail.map Prod.snd).map (budget table.limit)).sum) ?_ rfl (by simp)
      simp only [Shape.roll, Shape.counts, bind_pure_comp]
      exact hhead.bind fun o => (bounded_mathTail htail o.value 1).map _
    | function f argument =>
      refine rollsBounded_of_parts (b := budget table.limit argument) ?_ rfl (by simp)
      simp only [Shape.roll, Shape.counts, bind_pure_comp]
      exact (hoperands argument List.mem_cons_self).map _
    | replacement name argument =>
      refine rollsBounded_of_parts (b := budget table.limit argument + 0) ?_ rfl (by simp)
      simp only [Shape.roll, Shape.counts, bind_pure_comp]
      rw [← Trace.bind_empty argument.counts argument.roll]
      exact (hoperands argument List.mem_cons_self).bind fun o => (Bounded.transform name _).map _
    | inline inner =>
      refine rollsBounded_of_parts (b := budget table.limit inner) ?_ rfl (by simp)
      rw [Shape.roll, Shape.counts]
      exact hoperands inner List.mem_cons_self
    | unknown => exact rollsBounded_of_shape (.fault _)

/-- Whether it succeeds or fails, a roll draws no more than its dice may by the limit of the table:
each explosion of a die can make a thousand and one throws out of one, and each reroll two. -/
theorem drawn_le_budget {f : Formula} {n : Nat} (hmods : f.Limited)
    (hcounts : ∀ c ∈ f.counts table n, c.isInt = true) :
    (f.roll table n).2 ≤ n + f.budget table.limit :=
  rolls_bounded f hmods n hcounts

/-- Two dice that explode and are thrown again once: no more than `1000 * 1001 * 2` draws. -/
theorem drawn_le_budget_explode_reroll :
    ((Formula.die ⟨.int 2, .sides (.int 6), [.explode .explode none, .reroll true none], [], none,
      none⟩).roll (.ofSamples fun _ => 0.3) 0).2 ≤
    0 + (Formula.die ⟨.int 2, .sides (.int 6), [.explode .explode none, .reroll true none], [], none,
      none⟩).budget 1000 := by
  refine drawn_le_budget ?_ ?_
  · rw [Formula.Limited, forall_parts_iff]
    simp [Formula.children_eq, Formula.die, Formula.int, Formula.number, Formula.bare]
  · exact List.all_eq_true.mp (by decide +kernel)

end DiceNotation

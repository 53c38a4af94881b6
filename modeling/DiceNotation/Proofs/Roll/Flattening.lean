import DiceNotation.Proofs.Outcome.Flattening
import DiceNotation.Proofs.Roll.Modifiers

/-! A group of one die is that die. The group works on the throws of its one member, so modifiers of
the group come to the same as the keeping and dropping ones of them after the modifiers of the die,
and the counting ones as its targets. -/

namespace DiceNotation

open Play Stage

namespace Formula

/-- A number as it is written. -/
def IsLiteral (f : Formula) : Prop :=
  ∃ value label, f = ⟨.number value, label⟩

def literal : Formula → Number
  | ⟨.number value, _⟩ => value
  | _ => .zero

theorem roll_value_of_isLiteral {α : Type} {f : Formula} (h : f.IsLiteral) (g : Number → α) :
    (fun o => g o.value) <$> f.roll = (Pure.pure (g f.literal) : Play α) := by
  obtain ⟨value, label, rfl⟩ := h
  simp only [roll, Shape.roll, pure_bind, map_pure]
  cases label <;> rfl

end Formula

section Literals

theorem rollModifier_of_isLiteral {m : Modifier Formula} (hm : m.isForGroups = true)
    (h : ∀ f ∈ m.arguments, f.IsLiteral) : rollModifier m = Pure.pure (m.map Formula.literal) := by
  cases m with
  | keep extreme count | drop extreme count =>
    rw [rollModifier, bind_pure_comp]
    exact Formula.roll_value_of_isLiteral (h count List.mem_cons_self) _
  | success t =>
    obtain ⟨relation, f⟩ := t
    simp only [rollModifier, rollTarget, bind_pure_comp, Functor.map_map]
    exact Formula.roll_value_of_isLiteral (h f List.mem_cons_self) fun x =>
      Modifier.success ⟨relation, x⟩
  | failure t =>
    obtain ⟨relation, f⟩ := t
    simp only [rollModifier, rollTarget, bind_pure_comp, Functor.map_map]
    exact Formula.roll_value_of_isLiteral (h f List.mem_cons_self) fun x =>
      Modifier.failure ⟨relation, x⟩
  | critical | criticalFailure | explode | reroll | unknown => cases hm

theorem isForGroups_map {α β : Type} (f : α → β) (m : Modifier α) :
    (m.map f).isForGroups = m.isForGroups := by
  cases m <;> rfl

theorem entryStage_of_isForGroups {m : Modifier Number} (hm : m.isForGroups = true)
    (es : List Entry) : entryStage m es = Pure.pure (apply m es) := by
  cases m with
  | keep | drop | success | failure => rfl
  | critical | criticalFailure | explode | reroll | unknown => cases hm

theorem throwStage_of_isForGroups {m : Modifier Number} (hm : m.isForGroups = true)
    {ts : List Throw} (hts : InLine ts) : throwStage m ts =
      Pure.pure (Throw.restamp ts ((apply m (Entry.ofThrows ts)).map Entry.status)) := by
  cases m with
  | keep | drop | success | failure =>
    rw [← onThrows_eq_restamp rfl hts]
    rfl
  | critical | criticalFailure | explode | reroll | unknown => cases hm

variable {mods : List (Modifier Formula)}

/-- Modifiers of a group with literal arguments are stages, one after the other. -/
theorem rollGroupMods_of_isLiteral (hmods : ∀ m ∈ mods, m.isForGroups = true)
    (h : ∀ m ∈ mods, ∀ f ∈ m.arguments, f.IsLiteral) (es : List Entry) :
    rollGroupMods mods es = Pure.pure (through (mods.map (Modifier.map Formula.literal)) es) := by
  induction mods generalizing es with
  | nil => rfl
  | cons m mods ih =>
    obtain ⟨hm, hrest⟩ := List.forall_mem_cons.mp hmods
    obtain ⟨hliteral, hliterals⟩ := List.forall_mem_cons.mp h
    have hm' : (m.map Formula.literal).isForGroups = true := (isForGroups_map _ m).trans hm
    rw [rollGroupMods, hm, if_neg (by simp), rollModifier_of_isLiteral hm hliteral, pure_bind,
      entryStage_of_isForGroups hm', pure_bind, ih hrest hliterals, List.map_cons, through_cons]

/-- So they are on the throws of a die, by way of the entries of the throws. -/
theorem rollMods_of_isLiteral (hmods : ∀ m ∈ mods, m.isForGroups = true)
    (h : ∀ m ∈ mods, ∀ f ∈ m.arguments, f.IsLiteral) {ts : List Throw} (hts : InLine ts) :
    rollMods mods ts = Pure.pure (Throw.restamp ts
      ((through (mods.map (Modifier.map Formula.literal)) (Entry.ofThrows ts)).map Entry.status)) := by
  induction mods generalizing ts with
  | nil =>
    rw [rollMods, List.map_nil, through_nil, Entry.map_status_ofThrows, Throw.restamp_self]
  | cons m mods ih =>
    obtain ⟨hm, hrest⟩ := List.forall_mem_cons.mp hmods
    obtain ⟨hliteral, hliterals⟩ := List.forall_mem_cons.mp h
    have hm' : (m.map Formula.literal).isForGroups = true := (isForGroups_map _ m).trans hm
    have hmarks := forall₂_apply (m.map Formula.literal) (rising_ofThrows hts)
    rw [rollMods, rollModifier_of_isLiteral hm hliteral, pure_bind,
      throwStage_of_isForGroups hm' hts, pure_bind, ih hrest hliterals (inLine_restamp hts hmarks),
      ofThrows_restamp hmarks, Throw.restamp_restamp (length_of_marks hmarks), List.map_cons,
      through_cons]

end Literals

namespace Throw

/-- The value of a throw is its face for as long as it is an integer. -/
def Faithful (t : Throw) : Prop :=
  t.value.isInt = true → t.value = .int t.face

theorem invariant_faithful {m : Modifier Number} (hm : m.isPenetrating = false) :
    Invariant m Faithful where
  step t u h ht := by
    cases h with
    | place | tag | explode | reroll => exact ht
    | @mark _ _ s h =>
      intro hint
      have hvalue : s.value = t.value := h.value
      exact hvalue.trans (ht (hvalue ▸ hint))
    | compound face =>
      intro hint
      obtain ⟨i, j, hi, hj, hsum⟩ := Number.add_of_isInt hint
      obtain rfl : face = j := Number.int.inj hj
      have hface : t.value = .int t.face := ht (by rw [hi]; rfl)
      obtain rfl : i = t.face := Number.int.inj (hi.symm.trans hface)
      exact hsum
    | penetrate => cases hm
  fresh t sample _ := fun _ => rfl

end Throw

/-- The throws of a die after its modifiers, with what its count and its faces came to. -/
def Die.thrown (count : Formula) (faces : Faces Formula) (mods : List (Modifier Formula)) :
    Play (Outcome × Option Outcome × List Throw) := do
  let count ← count.roll
  let size ← throwCount count.value
  let (sides, faces) ← rollFaces faces
  let throws ← throwMany faces size
  return (count, sides, ← rollMods mods throws)

section Thrown

variable {count : Formula} {faces : Faces Formula} {mods : List (Modifier Formula)}
  {label : Option String} {table : Table} {n : Nat}

theorem roll_eq_thrown (mods' targets : List (Modifier Formula)) :
    (⟨.die ⟨count, faces, mods ++ mods', targets, none, none⟩, label⟩ : Formula).roll =
      Die.thrown count faces mods >>= fun r => (fun throws =>
        (Outcome.ofDie r.1 r.2.1 (!targets.isEmpty) none none throws).relabel label) <$>
          rollMods (mods' ++ targets) r.2.2 := by
  rw [Formula.roll, roll_die, Die.thrown]
  simp only [bind_assoc, bind_pure_comp, List.append_assoc, rollMods_append mods, rollMatching,
    map_pure, Functor.map_map, map_bind, bind_map_left]

theorem thrown_append (mods' : List (Modifier Formula)) :
    Die.thrown count faces (mods ++ mods') = Die.thrown count faces mods >>= fun r =>
      (fun throws => (r.1, r.2.1, throws)) <$> rollMods mods' r.2.2 := by
  simp only [Die.thrown, rollMods_append, bind_assoc, bind_pure_comp, map_bind, bind_map_left]

theorem gives_thrown_inLine :
    (Die.thrown count faces mods).Gives table n fun r _ => InLine r.2.2 := by
  simp only [Die.thrown, bind_pure_comp, gives_bind, gives_map]
  refine (gives_trivial _).mono fun _ k _ => (gives_trivial _).mono fun size k _ => ?_
  refine (gives_trivial _).mono fun shown k _ => ?_
  rw [gives_throwMany]
  exact gives_rollMods_inLine mods (inLine_drawMany k shown.2 size)

/-- A die is its throws, put together after its targets. -/
theorem roll_die_eq_thrown (d : Die Formula) (label : Option String) :
    (⟨.die d, label⟩ : Formula).roll = Die.thrown d.count d.faces d.mods >>= fun r =>
      rollMods d.targets r.2.2 >>= fun throws =>
        (fun matching => (Outcome.ofDie r.1 r.2.1 (!d.targets.isEmpty) matching d.sorting
          throws).relabel label) <$> rollMatching d.matching := by
  simp only [Formula.roll, roll_die, Die.thrown, rollMods_append, bind_assoc, bind_pure_comp,
    map_bind, bind_map_left, Functor.map_map]

theorem gives_thrown (hmods : ∀ m ∈ mods, m.isPenetrating = false) :
    (Die.thrown count faces mods).Gives table n fun r _ =>
      InLine r.2.2 ∧ ∀ t ∈ r.2.2, t.Faithful := by
  simp only [Die.thrown, bind_pure_comp, gives_bind, gives_map]
  refine (gives_trivial _).mono fun _ k _ => (gives_trivial _).mono fun size k _ => ?_
  refine (gives_trivial _).mono fun shown k _ => ?_
  rw [gives_throwMany]
  have hdrawn : ∀ t ∈ Throw.drawMany table.samples k shown.2 size, t.Faithful :=
    List.forall_mem_map.mpr fun _ _ _ => rfl
  refine (gives_rollMods_inLine mods (inLine_drawMany k shown.2 size)).and ?_
  refine gives_rollMods (fun m hm m' hkind => Throw.invariant_faithful ?_) hdrawn
  rw [← m'.isPenetrating_kind, hkind, m.isPenetrating_kind, hmods m hm]

end Thrown

/-- Two runs that end at the same place, with the same fault or with results that are related. -/
def Alike {α β : Type} (R : α → β → Prop) : Except Fault α × Nat → Except Fault β × Nat → Prop
  | (.ok a, n), (.ok b, m) => R a b ∧ n = m
  | (.error e, n), (.error e', m) => e = e' ∧ n = m
  | _, _ => False

theorem Alike.exists_ok {α β : Type} {R : α → β → Prop} {x : Except Fault α × Nat}
    {y : Except Fault β × Nat} (h : Alike R x y) (hx : x.1.toBool = true) :
    ∃ a b n, x = (.ok a, n) ∧ y = (.ok b, n) ∧ R a b := by
  obtain ⟨e | a, n⟩ := x
  · simp [Except.toBool] at hx
  · obtain ⟨e | b, m⟩ := y
    · exact h.elim
    · obtain ⟨hR, rfl⟩ := h
      exact ⟨a, b, n, rfl, rfl, hR⟩

section Group

variable {count : Formula} {faces : Faces Formula} {mods group : List (Modifier Formula)}
  {label label' label'' : Option String} {table : Table} {n : Nat}

theorem roll_plain_eq_thrown :
    (⟨.die ⟨count, faces, mods, [], none, none⟩, label⟩ : Formula).roll =
      (fun r => ⟨.ofValue (Throw.total r.2.2), .die r.1 r.2.1 r.2.2, label⟩) <$>
        Die.thrown count faces mods := by
  have hroll : (⟨.die ⟨count, faces, mods ++ [], [], none, none⟩, label⟩ : Formula).roll = _ :=
    roll_eq_thrown [] []
  rw [List.append_nil] at hroll
  simp only [hroll, List.nil_append, rollMods, List.isEmpty_nil, Bool.not_true, map_pure,
    Outcome.ofDie_plain, bind_pure_comp]

theorem roll_group_eq_thrown (hne : group ≠ []) (hgroup : ∀ m ∈ group, m.isForGroups = true)
    (hliteral : ∀ m ∈ group, ∀ f ∈ m.arguments, f.IsLiteral) :
    (⟨.group ⟨.die ⟨count, faces, mods, [], none, none⟩, label⟩ [] group, label'⟩ : Formula).roll =
      (fun r => (Outcome.ofGroup
          [⟨.ofValue (Throw.total r.2.2), .die r.1 r.2.1 r.2.2, label⟩] (group.any Modifier.isTarget)
          (Entry.statuses (through (group.map (Modifier.map Formula.literal))
            (Entry.ofStatuses (r.2.2.map Throw.status))))).relabel label') <$>
        Die.thrown count faces mods := by
  have hempty : group.isEmpty = false := by simpa using hne
  rw [Formula.roll, Shape.roll, roll_plain_eq_thrown]
  simp only [rollMembers, hempty, Bool.false_eq_true, if_false,
    rollGroupMods_of_isLiteral hgroup hliteral, bind_pure_comp, map_pure, Functor.map_map]
  rfl

/-- A group of one die is the die with the modifiers of the group put after its own, if its throws
and their sum stay integers. -/
theorem roll_group_alike (hmods : ∀ m ∈ mods, m.isPenetrating = false) (hne : group ≠ [])
    (hgroup : ∀ m ∈ group, m.isForGroups = true)
    (hliteral : ∀ m ∈ group, ∀ f ∈ m.arguments, f.IsLiteral)
    (hvalues : ∀ o m, (⟨.die ⟨count, faces, mods, [], none, none⟩, label⟩ : Formula).roll table n =
      (.ok o, m) → ∀ t ∈ o.throws, t.value.isInt = true)
    (hsum : ∀ o m, (⟨.group ⟨.die ⟨count, faces, mods, [], none, none⟩, label⟩ [] group, label'⟩ :
      Formula).roll table n = (.ok o, m) → o.value.isInt = true) :
    Alike Outcome.Flattens
      ((⟨.group ⟨.die ⟨count, faces, mods, [], none, none⟩, label⟩ [] group, label'⟩ : Formula).roll
        table n)
      ((⟨.die ⟨count, faces, mods ++ group.filter (fun m => !m.isTarget),
        group.filter Modifier.isTarget, none, none⟩, label''⟩ : Formula).roll table n) := by
  rw [roll_group_eq_thrown hne hgroup hliteral] at hsum ⊢
  rw [roll_eq_thrown]
  rw [roll_plain_eq_thrown] at hvalues
  rcases hrun : Die.thrown count faces mods table n with ⟨e | ⟨c, s, ts⟩, k⟩
  · rw [map_error hrun, bind_error hrun]
    exact ⟨rfl, rfl⟩
  · obtain ⟨hline, hfaithful⟩ := gives_thrown hmods _ _ hrun
    have hfaces : ∀ t ∈ ts, t.value = .int t.face := fun t ht =>
      hfaithful t ht (hvalues _ _ (map_ok hrun _) t ht)
    have hlast : ∀ m ∈ countLast group, m ∈ group := fun m hm =>
      (countLast_perm group).mem_iff.mp hm
    have hstages : rollMods (group.filter (fun m => !m.isTarget) ++ group.filter Modifier.isTarget) ts =
        Pure.pure (Throw.restamp ts ((through (countLast (group.map (Modifier.map Formula.literal)))
          (Entry.ofThrows ts)).map Entry.status)) := by
      rw [countLast_map]
      exact rollMods_of_isLiteral (fun m hm => hgroup m (hlast m hm))
        (fun m hm => hliteral m (hlast m hm)) hline
    have hint := hsum _ _ (map_ok hrun _)
    rw [map_ok hrun, bind_ok hrun, hstages, map_pure]
    simp only [Outcome.value, Outcome.status_relabel, ofStatuses_map_status hfaces,
      Modifier.isEmpty_filter_isTarget, ← Modifier.any_isTarget_map Formula.literal group] at hint ⊢
    have hflat := Outcome.flattens_through (group.map (Modifier.map Formula.literal)) label hline hint
    exact ⟨hflat.relabel label' label'', rfl⟩

/-- The two highest of three dice, one of which explodes, and a success for each four. -/
theorem roll_group_alike_explode_keep : ∃ o o' n,
    (Formula.bare (.group (.die ⟨.int 3, .sides (.int 6), [.explode .explode none], [], none, none⟩)
      [] [.success ⟨.atLeast, .int 4⟩, .keep .high (.int 2)])).roll
      (.ofSamples fun i => if i = 0 then 0.9 else 0.5) 0 = (.ok o, n) ∧
    (Formula.die ⟨.int 3, .sides (.int 6), [.explode .explode none, .keep .high (.int 2)],
      [.success ⟨.atLeast, .int 4⟩], none, none⟩).roll
      (.ofSamples fun i => if i = 0 then 0.9 else 0.5) 0 = (.ok o', n) ∧ o.Flattens o' := by
  refine Alike.exists_ok (roll_group_alike ?_ ?_ ?_ ?_ ?_ ?_) (by decide +kernel)
  · simp
  · simp
  · exact List.all_eq_true.mp rfl
  · simp [Formula.IsLiteral, Formula.int, Formula.number, Formula.bare]
  · intro o m h t ht
    exact List.all_eq_true.mp (forall_of_all (P := fun o : Outcome =>
      o.throws.all fun t => t.value.isInt) (by decide +kernel) o m h) t ht
  · exact forall_of_all (P := fun o : Outcome => o.value.isInt) (by decide +kernel)

end Group

end DiceNotation

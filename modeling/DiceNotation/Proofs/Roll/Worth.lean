import DiceNotation.Proofs.Outcome.Worth
import DiceNotation.Proofs.Roll.Dropping

/-! What a die is worth as it is rolled. The modifiers of a die count nothing, and its targets are
stages that its throws go through after them; what those count is all that the die has counted. -/

namespace DiceNotation

open Play Stage

variable {table : Table} {n : Nat}

section Targets

variable {mods : List (Modifier Formula)}

theorem isForGroups_of_isTarget {α : Type} {m : Modifier α} (h : m.isTarget = true) :
    m.isForGroups = true := by
  cases m <;> simp_all [Modifier.isTarget, Modifier.isForGroups]

/-- Modifiers that a group knows do the same to the throws of a die, by way of their entries. -/
theorem rollMods_eq_restamp (hmods : ∀ m ∈ mods, m.isForGroups = true) {ts : List Throw}
    (hts : InLine ts) : rollMods mods ts = (fun ms => Throw.restamp ts
      ((through ms (Entry.ofThrows ts)).map Entry.status)) <$> rollGroupStages mods := by
  induction mods generalizing ts with
  | nil => simp [rollMods, rollGroupStages, Throw.restamp_self]
  | cons m mods ih =>
    obtain ⟨hm, hrest⟩ := List.forall_mem_cons.mp hmods
    funext t n
    simp only [rollMods, rollGroupStages, hm, Bool.not_true, Bool.false_eq_true, if_false,
      bind_pure_comp, map_bind, Functor.map_map, through_cons]
    refine bind_eq_of_gives ((gives_rollModifier_kind m).mono fun m' k hkind => ?_)
    have hm' : m'.isForGroups = true := (isForGroups_of_kind hkind).trans hm
    have hmarks := forall₂_apply m' (rising_ofThrows hts)
    rw [throwStage_of_isForGroups hm' hts, pure_bind, ih hrest (inLine_restamp hts hmarks),
      ofThrows_restamp hmarks]
    simp only [Throw.restamp_restamp (length_of_marks hmarks)]

theorem isTarget_of_rollGroupStages {ms : List (Modifier Number)} {k : Nat}
    (h : ∀ m ∈ mods, m.isTarget = true) (hms : rollGroupStages mods table n = (.ok ms, k)) :
    (∀ m ∈ ms, m.isTarget = true) ∧ ms.isEmpty = mods.isEmpty := by
  have hkinds : ms.map Modifier.kind = mods.map Modifier.kind := gives_rollGroupStages_kind mods _ _ hms
  refine ⟨fun m' hm' => ?_, by simpa using congrArg List.isEmpty hkinds⟩
  obtain ⟨m, hm, hkind⟩ := List.mem_map.mp (hkinds ▸ List.mem_map_of_mem hm')
  calc m'.isTarget = m'.kind.isTarget := (m'.isTarget_map _).symm
    _ = m.kind.isTarget := by rw [hkind]
    _ = m.isTarget := m.isTarget_map _
    _ = true := h m hm

end Targets

section Die

variable {d : Die Formula} {label : Option String} {m : Nat} {o : Outcome}

/-- The throws that reach the targets have counted nothing, and none of them is matched. -/
theorem gives_thrown_fresh (hmods : ∀ m ∈ d.mods, m.isTarget = false) :
    (Die.thrown d.count d.faces d.mods).Gives table n fun r _ => InLine r.2.2 ∧
      ∀ t ∈ r.2.2, t.status.Uncounted ∧ t.matched = false := by
  refine gives_thrown_inLine.and ?_
  simp only [Die.thrown, bind_pure_comp, gives_bind, gives_map]
  refine (gives_trivial _).mono fun _ k _ => (gives_trivial _).mono fun size k _ => ?_
  refine (gives_trivial _).mono fun shown k _ => ?_
  rw [gives_throwMany]
  have hdrawn : ∀ t ∈ Throw.drawMany table.samples k shown.2 size,
      t.status.Uncounted ∧ t.matched = false :=
    List.forall_mem_map.mpr fun _ _ => ⟨⟨rfl, rfl⟩, rfl⟩
  refine gives_rollMods (fun m hm m' hkind => ?_) hdrawn
  have htarget : m'.isTarget = false := by
    rw [← m'.isTarget_map fun _ => (), ← hmods m hm, ← m.isTarget_map fun _ => ()]
    exact congrArg Modifier.isTarget hkind
  exact (Throw.invariant_uncounted htarget).and (Throw.invariant_unmatched m')

/-- A die whose modifiers count nothing counts what its targets say, and is worth the faces that it
matched, or its successes less its failures, or the sum of its throws. -/
theorem die_worth (hmods : ∀ m ∈ d.mods, m.isTarget = false)
    (htargets : ∀ m ∈ d.targets, m.isTarget = true)
    (hrun : (⟨.die d, label⟩ : Formula).roll table n = (.ok o, m)) :
    ∃ thrown k targets k' matching,
      Die.thrown d.count d.faces d.mods table n = (.ok thrown, k) ∧
      rollGroupStages d.targets table k = (.ok targets, k') ∧
      rollMatching d.matching table k' = (.ok matching, m) ∧
      targets.isEmpty = d.targets.isEmpty ∧ matching.any Matching.counted = d.countsMatches ∧
      o.Worth targets matching := by
  rw [roll_die_eq_thrown] at hrun
  obtain ⟨thrown, k, hthrown, hrest⟩ := exists_of_bind_ok hrun
  obtain ⟨throws, k', hthrows, hends⟩ := exists_of_bind_ok hrest
  obtain ⟨matching, hmatching, rfl⟩ := exists_of_map_ok hends
  obtain ⟨hline, hfresh⟩ := gives_thrown_fresh hmods _ _ hthrown
  rw [rollMods_eq_restamp (fun m hm => isForGroups_of_isTarget (htargets m hm)) hline] at hthrows
  obtain ⟨targets, hstages, rfl⟩ := exists_of_map_ok hthrows
  obtain ⟨htargets, hempty⟩ := isTarget_of_rollGroupStages htargets hstages
  have hcounts := Throw.counts_restamp htargets hline fun t ht => (hfresh t ht).1
  have hmatched := Throw.forall_restamp (P := fun t => t.matched = false) (fun _ _ ht => ht)
    (fun t ht => (hfresh t ht).2) ((through targets (Entry.ofThrows thrown.2.2)).map Entry.status)
  refine ⟨thrown, k, targets, k', matching, hthrown, hstages, hmatching, hempty,
    gives_rollMatching_counted d.matching _ _ hmatching, ?_⟩
  rw [← hempty]
  exact (Outcome.worth_ofDie hmatched hcounts).relabel label

/-- A six that brings a six and a one more, of which the two highest are kept: two successes, and no
failure for the one, which was dropped. -/
theorem die_worth_explode_keep : ∃ o targets matching,
    (Formula.die ⟨.int 1, .sides (.int 6), [.explode .explode none, .keep .high (.int 2)],
      [.success ⟨.atLeast, .int 4⟩, .failure ⟨.equal, .int 1⟩], none, none⟩).roll
        (.ofSamples fun i => if i < 2 then 0.9 else 0.1) 0 = (.ok o, 3) ∧
    o.Worth targets matching ∧ (o.status.successes, o.status.failures) = (2, 0) := by
  obtain ⟨o, hrun⟩ := exists_of_toBool (t := .ofSamples fun i => if i < 2 then 0.9 else 0.1) (n := 0)
    (p := (Formula.die ⟨.int 1, .sides (.int 6), [.explode .explode none, .keep .high (.int 2)],
      [.success ⟨.atLeast, .int 4⟩, .failure ⟨.equal, .int 1⟩], none, none⟩).roll) (m := 3)
    (by decide +kernel)
  obtain ⟨-, -, targets, -, matching, -, -, -, -, -, hworth⟩ := die_worth (by decide) (by decide) hrun
  have hcounts := forall_of_all (P := fun o : Outcome =>
    decide ((o.status.successes, o.status.failures) = (2, 0))) (by decide +kernel) o 3 hrun
  exact ⟨o, targets, matching, hrun, hworth, of_decide_eq_true hcounts⟩

end Die

end DiceNotation

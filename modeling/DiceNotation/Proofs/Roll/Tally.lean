import DiceNotation.Proofs.Outcome.Entries
import DiceNotation.Proofs.Roll.Grouping
import DiceNotation.Proofs.Stage.Tallying

/-! What a group counts. Its successes are the pairs of an entry that is valid in the end and a
target that it meets, and beside them the successes that its valid entries brought with them from
below: those of a die that has targets of its own, or of a group inside of the group. -/

namespace DiceNotation

open Play Stage

/-- The status of a group that counts, by its entries before and after its modifiers. -/
structure Status.Tallies (ms : List (Modifier Number)) (before after : List Status)
    (s : Status) : Prop where
  values : after.map Status.value = before.map Status.value
  successes : s.successes = brought Status.successes before after + hits succeeds ms after
  failures : s.failures = brought Status.failures before after + hits fails ms after
  value : s.value = s.score
  success : s.success = some (Number.zero.less s.value)

section Judging

/-- To judge a status changes nothing that is counted by. -/
theorem judge_eq (s : Status) : ∃ success, judge s = { s with success := success } := by
  unfold judge
  split
  · exact ⟨_, rfl⟩
  · exact ⟨s.success, rfl⟩

theorem brought_map_judge (count : Status → Nat) (ss ss' : List Status) :
    brought count ss (ss'.map judge) = brought count ss ss' := by
  induction ss generalizing ss' with
  | nil => rfl
  | cons s ss ih =>
    cases ss' with
    | nil => rfl
    | cons s' ss' =>
      obtain ⟨success, hjudge⟩ := judge_eq s'
      rw [List.map_cons, brought, brought, ih, hjudge]

theorem hits_map_judge (meets : Number → Modifier Number → Bool) (ms : List (Modifier Number))
    (ss : List Status) : hits meets ms (ss.map judge) = hits meets ms ss := by
  induction ss with
  | nil => rfl
  | cons s ss ih =>
    obtain ⟨success, hjudge⟩ := judge_eq s
    rw [List.map_cons, hits_cons, hits_cons, ih, hjudge]

theorem map_value_map_judge (ss : List Status) :
    (ss.map judge).map Status.value = ss.map Status.value := by
  rw [List.map_map]
  refine List.map_congr_left fun s _ => ?_
  obtain ⟨success, hjudge⟩ := judge_eq s
  rw [Function.comp_apply, hjudge]

end Judging

theorem map_value_of_counted {ms : List (Modifier Number)} {ss ss' : List Status}
    (h : List.Forall₂ (Status.Counted ms) ss ss') :
    ss'.map Status.value = ss.map Status.value := by
  induction h with
  | nil => rfl
  | cons hs _ ih => rw [List.map_cons, List.map_cons, hs.value, ih]

theorem Outcome.tallies_ofGroup {members : List Outcome} {ms : List (Modifier Number)}
    {ss : List Status} (h : List.Forall₂ (Status.Counted ms) (entries members) ss) :
    (ofGroup members true ss).status.Tallies ms (entries members)
      (entries (ofGroup members true ss).operands) := by
  have hlength : (ss.map judge).length = (entries members).length := by
    rw [List.length_map, h.length_eq]
  have hentries : entries (ofGroup members true ss).operands = ss.map judge :=
    entries_withEntries hlength
  have htotals := totals_eq h
  rw [hentries]
  refine ⟨?_, ?_, ?_, rfl, rfl⟩
  · rw [map_value_map_judge, map_value_of_counted h]
  · rw [brought_map_judge, hits_map_judge]
    exact congrArg Prod.fst htotals
  · rw [brought_map_judge, hits_map_judge]
    exact congrArg Prod.snd htotals

section Group

variable {first : Formula} {others : List Formula} {mods : List (Modifier Formula)}
  {label : Option String} {table : Table} {n m : Nat} {o : Outcome}

/-- A group counts each of its entries once for each target, on top of what the entry brought. -/
theorem group_tallies (htarget : mods.any Modifier.isTarget = true)
    (hrun : (⟨.group first others mods, label⟩ : Formula).roll table n = (.ok o, m)) :
    ∃ members ms k, rollGroupMembers first others table n = (.ok members, k) ∧
      rollGroupStages mods table k = (.ok ms, m) ∧
      o.status.Tallies ms (Outcome.entries members) (Outcome.entries o.operands) := by
  have hne : mods ≠ [] := by
    rintro rfl
    cases htarget
  rw [Formula.roll, bind_pure_comp] at hrun
  obtain ⟨group, hgroup, rfl⟩ := exists_of_map_ok hrun
  rw [roll_group hne] at hgroup
  obtain ⟨members, k, hmembers, hstages⟩ := exists_of_bind_ok hgroup
  obtain ⟨ms, hms, rfl⟩ := exists_of_map_ok hstages
  refine ⟨members, ms, k, hmembers, hms, ?_⟩
  rw [htarget, Outcome.status_relabel, Outcome.operands_relabel]
  exact Outcome.tallies_ofGroup (counted_through ms _)

/-- Two fives with a success each, in a group that asks for a success: each entry brings one and
meets the condition of the group as well. -/
theorem group_tallies_counted_die : ∃ o members ms,
    (Formula.bare (.group (.die ⟨.int 2, .sides (.int 6), [], [.success ⟨.atLeast, .int 4⟩],
      none, none⟩) [] [.success ⟨.atLeast, .int 1⟩])).roll (.ofSamples fun _ => 0.75) 0 =
        (.ok o, 2) ∧
    o.status.Tallies ms (Outcome.entries members) (Outcome.entries o.operands) := by
  obtain ⟨o, hrun⟩ := exists_of_toBool (t := .ofSamples fun _ => 0.75) (n := 0)
    (p := (Formula.bare (.group (.die ⟨.int 2, .sides (.int 6), [], [.success ⟨.atLeast, .int 4⟩],
      none, none⟩) [] [.success ⟨.atLeast, .int 1⟩])).roll) (m := 2) (by decide +kernel)
  obtain ⟨members, ms, -, -, -, htallies⟩ := group_tallies rfl hrun
  exact ⟨o, members, ms, hrun, htallies⟩

/-- The same group counts four successes, though its condition is met twice. -/
theorem group_tallies_twice :
    ((Formula.bare (.group (.die ⟨.int 2, .sides (.int 6), [], [.success ⟨.atLeast, .int 4⟩],
      none, none⟩) [] [.success ⟨.atLeast, .int 1⟩])).roll (.ofSamples fun _ => 0.75) 0).1.toOption.map
        (fun o => (o.status.successes,
          hits succeeds [.success ⟨.atLeast, .int 1⟩] (Outcome.entries o.operands))) =
      some (4, 2) := by
  decide +kernel

end Group

end DiceNotation

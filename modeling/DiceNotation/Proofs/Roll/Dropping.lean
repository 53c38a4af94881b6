import DiceNotation.Proofs.Outcome.Flattening
import DiceNotation.Proofs.Outcome.Lawful
import DiceNotation.Proofs.Roll.Grouping

/-! A die whose throws are kept and dropped by a group around it. The group sums up the throws that
are left, and leaves all else that the die came to. So the die keeps to the law of its value as far as
a sum goes: a die that counts successes is still worth the difference of those that are left, though
it goes on to show the counts from before; a die that counts its matches is no longer worth them. -/

namespace DiceNotation

open Play Stage

namespace Outcome

/-- A die before and after the stages of a group that drops throws. -/
structure Dwindles (die left : Outcome) : Prop where
  throws : List.Forall₂ (Throw.Marks false) die.throws left.throws
  status : left.status = { die.status with value := Throw.total left.throws }

variable {die left : Outcome}

theorem Dwindles.value_eq (h : die.Dwindles left) : left.value = Throw.total left.throws := by
  rw [value, h.status]

theorem Dwindles.value_of_scored (h : die.Dwindles left) (hscored : ∀ t ∈ die.throws, t.Scored)
    (hs : Number.Fits (totals (left.throws.map Throw.status)).1)
    (hf : Number.Fits (totals (left.throws.map Throw.status)).2) :
    left.value = Status.balance (totals (left.throws.map Throw.status)) := by
  have hleft : ∀ t ∈ left.throws, t.Scored := by
    refine Throw.forall_of_marks (fun t s hmark ht => ?_) h.throws hscored
    obtain ⟨hsuccesses, hfailures, -⟩ := hmark.tally rfl
    exact (hmark.value.trans ht).trans (Status.score_congr hsuccesses hfailures).symm
  rw [h.value_eq, Throw.total_eq_balance hleft hs hf]

section Member

variable {count : Outcome} {faces : Option Outcome} {ts : List Throw}

theorem entries_die (hbody : die.body = .die count faces ts) :
    entries [die] = ts.map Throw.status := by
  obtain ⟨status, body, label⟩ := die
  obtain rfl : body = .die count faces ts := hbody
  rfl

/-- Statuses that were marked in a group of one die go back into its throws. -/
theorem dwindles_withEntries (hbody : die.body = .die count faces ts) {ss : List Status}
    (h : List.Forall₂ (Status.Marks false) (entries [die]) ss) :
    ∃ left, withEntries [die] ss = [left] ∧ die.Dwindles left := by
  rw [entries_die hbody] at h
  obtain ⟨status, body, label⟩ := die
  obtain rfl : body = .die count faces ts := hbody
  obtain ⟨us, hus, hmarks⟩ := Throw.refill_of_marks h []
  rw [List.append_nil] at hus
  have hpool : pooled? [⟨status, .die count faces ts, label⟩] =
      some ⟨status, .die count faces ts, label⟩ := rfl
  refine ⟨⟨{ status with value := Throw.total us }, .die count faces us, label⟩, ?_, hmarks, rfl⟩
  simp only [withEntries, hpool, refill, hus, resum]

end Member

end Outcome

section Stages

variable {ms : List (Modifier Number)}

/-- Stages that count nothing do no more than to drop and to move entries. -/
theorem moved_through (h : ms.any Modifier.isTarget = false) (es : List Entry) :
    Entry.Moved false es (through ms es) := by
  induction ms generalizing es with
  | nil => exact .of_perm (.refl es)
  | cons m ms ih =>
    obtain ⟨hm, hms⟩ := Bool.or_eq_false_iff.mp (List.any_cons ▸ h)
    rw [through_cons]
    refine Entry.Moved.trans ?_ (ih hms _)
    unfold apply
    split
    · exact hm ▸ moved_of_ofModifier? ‹_› es
    · exact .of_perm (.refl es)

theorem marks_through (h : ms.any Modifier.isTarget = false) (ss : List Status) :
    List.Forall₂ (Status.Marks false) ss (Entry.statuses (through ms (Entry.ofStatuses ss))) := by
  have hmarks := Entry.statuses_of_moved (moved_through h _) (Entry.pairwise_place_ofStatuses ss)
  rwa [Entry.map_status_ofStatuses] at hmarks

theorem gives_rollGroupStages_isTarget {table : Table} {n : Nat} (mods : List (Modifier Formula)) :
    (rollGroupStages mods).Gives table n fun ms _ =>
      ms.any Modifier.isTarget = mods.any Modifier.isTarget := by
  refine (gives_rollGroupStages_kind mods).mono fun ms _ hkinds => ?_
  rw [← Modifier.any_isTarget_map (fun _ => ()) ms, ← Modifier.any_isTarget_map (fun _ => ()) mods]
  exact congrArg (List.any · Modifier.isTarget) hkinds

end Stages

section Die

variable {table : Table} {n : Nat}

theorem Throw.invariant_unmatched (m : Modifier Number) :
    Throw.Invariant m fun t => t.matched = false where
  step t u h ht := by cases h <;> exact ht
  fresh _ _ _ := rfl

theorem gives_rollMatching_counted (matching : Option (Matching Formula)) :
    (rollMatching matching).Gives table n fun matching' _ =>
      matching'.any Matching.counted = matching.any Matching.counted := by
  cases matching with
  | none => simp [rollMatching]
  | some matching =>
    simp only [rollMatching, bind_pure_comp, gives_bind, gives_map]
    exact (gives_trivial _).mono fun _ _ _ => (gives_trivial _).mono fun _ _ _ => rfl

/-- Whether a die is worth the number of faces that it matched. -/
def Die.countsMatches (d : Die Formula) : Bool :=
  d.matching.any Matching.counted

theorem gives_roll_ofDie (d : Die Formula) (label : Option String) :
    (⟨.die d, label⟩ : Formula).roll.Gives table n fun o _ => ∃ count faces matching ts,
      o = (Outcome.ofDie count faces (!d.targets.isEmpty) matching d.sorting ts).relabel label ∧
        matching.any Matching.counted = d.countsMatches ∧ ∀ t ∈ ts, t.matched = false := by
  simp only [Formula.roll, roll_die, bind_pure_comp, map_bind, Functor.map_map, gives_bind,
    gives_map]
  refine (gives_trivial _).mono fun count k _ => (gives_trivial _).mono fun size k _ => ?_
  refine (gives_trivial _).mono fun shown k _ => ?_
  rw [gives_throwMany]
  have hfresh : ∀ t ∈ Throw.drawMany table.samples k shown.2 size, t.matched = false :=
    List.forall_mem_map.mpr fun _ _ => rfl
  refine (gives_rollMods (fun _ _ m' _ => Throw.invariant_unmatched m') hfresh).mono fun ts k hts => ?_
  exact (gives_rollMatching_counted d.matching).mono fun matching k hcounted =>
    ⟨count, shown.1, matching, ts, rfl, hcounted, hts⟩

/-- A die as it is rolled obeys the law of its value; its throws are worth their scores if it counts
them. -/
theorem gives_roll_die_lawful (d : Die Formula) (label : Option String) :
    (⟨.die d, label⟩ : Formula).roll.Gives table n fun o _ =>
      (∃ count faces, o.body = .die count faces o.throws) ∧
        o.Lawful d.countsMatches (!d.targets.isEmpty) ∧
        (d.targets ≠ [] → ∀ t ∈ o.throws, t.Scored) := by
  refine (gives_roll_ofDie d label).mono fun o k ho => ?_
  obtain ⟨count, faces, matching, ts, rfl, hcounted, hts⟩ := ho
  rw [Outcome.body_relabel, Outcome.throws_relabel]
  refine ⟨⟨count, faces, rfl⟩, ?_, fun htargets => ?_⟩
  · exact hcounted ▸ Outcome.lawful_relabel (Outcome.lawful_ofDie hts) label
  · have hcounts : (!d.targets.isEmpty) = true := by simpa using htargets
    rw [hcounts]
    exact Outcome.scored_throws_ofDie

end Die

section Group

variable {d : Die Formula} {mods : List (Modifier Formula)} {label label' : Option String}
  {table : Table} {n m : Nat} {o : Outcome}

/-- What a group that drops throws of one die leaves of it. -/
theorem group_drops (hne : mods ≠ []) (hmods : mods.any Modifier.isTarget = false)
    (hrun : (⟨.group ⟨.die d, label⟩ [] mods, label'⟩ : Formula).roll table n = (.ok o, m)) :
    ∃ die k left, (⟨.die d, label⟩ : Formula).roll table n = (.ok die, k) ∧
      die.Lawful d.countsMatches (!d.targets.isEmpty) ∧ o.operands = [left] ∧
      die.Dwindles left ∧ left.Lawful false false ∧
      (d.targets ≠ [] → Number.Fits (totals (left.throws.map Throw.status)).1 →
        Number.Fits (totals (left.throws.map Throw.status)).2 →
        left.value = Status.balance (totals (left.throws.map Throw.status))) := by
  rw [Formula.roll, bind_pure_comp] at hrun
  obtain ⟨group, hgroup, rfl⟩ := exists_of_map_ok hrun
  rw [roll_group hne, rollGroupMembers_nil, bind_map_left] at hgroup
  obtain ⟨die, k, hdie, hstages⟩ := exists_of_bind_ok hgroup
  obtain ⟨ms, hms, rfl⟩ := exists_of_map_ok hstages
  obtain ⟨⟨count, faces, hbody⟩, hlawful, hscored⟩ := gives_roll_die_lawful d label die k hdie
  have hnone : ms.any Modifier.isTarget = false :=
    (gives_rollGroupStages_isTarget mods ms m hms).trans hmods
  obtain ⟨left, hleft, hdwindles⟩ :=
    Outcome.dwindles_withEntries hbody (marks_through hnone (Outcome.entries [die]))
  refine ⟨die, k, left, hdie, hlawful, ?_, hdwindles, hdwindles.value_eq,
    fun htargets hs hf => hdwindles.value_of_scored (hscored htargets) hs hf⟩
  rw [Outcome.operands_relabel, hmods]
  exact hleft

/-- The highest of three fives, each of which is a success. -/
theorem group_drops_keep_success : ∃ o left,
    (Formula.bare (.group (.die ⟨.int 3, .sides (.int 6), [], [.success ⟨.atLeast, .int 4⟩], none,
      none⟩) [] [.keep .high (.int 1)])).roll (.ofSamples fun _ => 0.75) 0 = (.ok o, 3) ∧
    o.operands = [left] ∧ left.value = Status.balance (totals (left.throws.map Throw.status)) := by
  obtain ⟨o, hrun⟩ := exists_of_toBool (t := .ofSamples fun _ => 0.75) (n := 0) (m := 3)
    (p := (Formula.bare (.group (.die ⟨.int 3, .sides (.int 6), [],
      [.success ⟨.atLeast, .int 4⟩], none, none⟩) [] [.keep .high (.int 1)])).roll)
    (by decide +kernel)
  obtain ⟨die, k, left, -, -, hleft, -, -, hvalue⟩ := group_drops (by simp) rfl hrun
  have hone := forall_of_all (P := fun o : Outcome => o.operands.all fun p =>
    decide (totals (p.throws.map Throw.status) = (1, 0))) (by decide +kernel) o 3 hrun
  have htotals : totals (left.throws.map Throw.status) = (1, 0) := by simpa [hleft] using hone
  refine ⟨o, left, hrun, hleft, hvalue (by simp) ?_ ?_⟩ <;>
  · rw [htotals]
    decide

/-- It still shows all three of them; and of two fours that are both kept, a die that counts its
matches is worth eight and not the one face that they match. -/
theorem group_drops_unlawful :
    (∃ o m, (Formula.bare (.group (.die ⟨.int 3, .sides (.int 6), [],
      [.success ⟨.atLeast, .int 4⟩], none, none⟩) [] [.keep .high (.int 1)])).roll
        (.ofSamples fun _ => 0.75) 0 = (.ok o, m) ∧
      ∃ left ∈ o.operands, ¬ left.Lawful false true) ∧
    ∃ o m, (Formula.bare (.group (.die ⟨.int 2, .sides (.int 6), [], [],
      some ⟨.int 2, true, none⟩, none⟩) [] [.keep .high (.int 2)])).roll
        (.ofSamples fun _ => 0.5) 0 = (.ok o, m) ∧
      ∃ left ∈ o.operands, ¬ left.Lawful true false := by
  constructor
  · obtain ⟨o, m, hrun, hstale⟩ := exists_of_any (t := .ofSamples fun _ => 0.75) (n := 0)
      (p := (Formula.bare (.group (.die ⟨.int 3, .sides (.int 6), [],
        [.success ⟨.atLeast, .int 4⟩], none, none⟩) [] [.keep .high (.int 1)])).roll)
      (P := fun o => o.operands.any fun left =>
        left.status.successes != (totals (left.throws.map Throw.status)).1) (by decide +kernel)
    obtain ⟨left, hleft, hne⟩ := List.any_eq_true.mp hstale
    refine ⟨o, m, hrun, left, hleft, fun hlawful => ?_⟩
    exact bne_iff_ne.mp hne (congrArg Prod.fst hlawful.1)
  · obtain ⟨o, m, hrun, hsummed⟩ := exists_of_any (t := .ofSamples fun _ => 0.5) (n := 0)
      (p := (Formula.bare (.group (.die ⟨.int 2, .sides (.int 6), [], [],
        some ⟨.int 2, true, none⟩, none⟩) [] [.keep .high (.int 2)])).roll)
      (P := fun o => o.operands.any fun left =>
        left.value.toInt64 != (Number.ofNat (matchedFaces left.throws).length).toInt64)
      (by decide +kernel)
    obtain ⟨left, hleft, hne⟩ := List.any_eq_true.mp hsummed
    refine ⟨o, m, hrun, left, hleft, fun hlawful => ?_⟩
    exact bne_iff_ne.mp hne (congrArg Number.toInt64 hlawful)

end Group

end DiceNotation

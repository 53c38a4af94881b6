import DiceNotation.Proofs.Outcome.Assembled
import DiceNotation.Proofs.Stage.Scoring

/-! How a die comes to its value: by the faces that it matched, by its successes and failures, or by
the sum of its throws. A die that is put together obeys this law over the throws that it then has. -/

namespace DiceNotation

open Stage

theorem nodup_eraseDups {α : Type} [BEq α] [LawfulBEq α] (xs : List α) : xs.eraseDups.Nodup := by
  induction h : xs.length using Nat.strong_induction_on generalizing xs with
  | h n ih =>
    cases xs with
    | nil => simp
    | cons x xs =>
      rw [List.eraseDups_cons, List.nodup_cons]
      refine ⟨fun hmem => ?_, ih _ ?_ _ rfl⟩
      · simp [List.mem_eraseDups] at hmem
      · rw [← h, List.length_cons]
        exact Nat.lt_succ_of_le (List.length_filter_le _ xs)

namespace Stage

/-- The faces that the matched throws show, each once. -/
def matchedFaces (ts : List Throw) : List Int64 :=
  ((ts.filter fun t => t.valid && t.matched).map Throw.face).eraseDups

theorem mem_matchedFaces {ts : List Throw} {face : Int64} : face ∈ matchedFaces ts ↔
    (true, true, face) ∈ ts.map fun t => (t.valid, t.matched, t.face) := by
  simp [matchedFaces, List.mem_eraseDups, and_assoc]

theorem mem_matchedFaces_withMatches (m : Matching Number) {ts : List Throw}
    (h : ∀ t ∈ ts, t.matched = false) {face : Int64} : face ∈ matchedFaces (withMatches m ts) ↔
      face ∈ (validFaces ts).eraseDups.filter (isMatched m ts) := by
  rw [mem_matchedFaces, withMatches, List.map_map, List.mem_map, List.mem_filter,
    List.mem_eraseDups, validFaces, List.mem_map]
  constructor
  · rintro ⟨t, ht, heq⟩
    rw [Function.comp_apply] at heq
    split at heq
    · rename_i hmatch
      obtain ⟨hvalid, hmatched⟩ := Bool.and_eq_true_iff.mp hmatch
      obtain rfl : t.face = face := congrArg (fun r => r.2.2) heq
      exact ⟨⟨t, List.mem_filter.mpr ⟨ht, hvalid⟩, rfl⟩, hmatched⟩
    · simp [h t ht] at heq
  · rintro ⟨⟨t, ht, rfl⟩, hmatched⟩
    obtain ⟨ht, hvalid⟩ := List.mem_filter.mp ht
    refine ⟨t, ht, ?_⟩
    rw [Function.comp_apply, if_pos (Bool.and_eq_true_iff.mpr ⟨hvalid, hmatched⟩)]
    exact congrArg (·, true, t.face) hvalid

end Stage

namespace Outcome

section Throws

variable {ts : List Throw}

/-- Sorting changes nothing of the throws but their order. -/
theorem map_sortedThrows_perm {β : Type} {w : Throw → β} (hw : ∀ t i, w (t.place i) = w t)
    (sorting : Option Sorting) (ts : List Throw) :
    ((sortedThrows sorting ts).map w).Perm (ts.map w) := by
  match sorting with
  | none => exact .refl _
  | some .ascending | some .descending =>
    simp only [sortedThrows, sortThrows, Throw.map_lineUp hw]
    exact (stableSort_perm _ ts).map w

theorem length_matchedFaces_sortedThrows (m : Matching Number) (sorting : Option Sorting)
    (h : ∀ t ∈ ts, t.matched = false) :
    (matchedFaces (sortedThrows sorting (withMatches m ts))).length = matchCount m ts := by
  have hnodup : ((validFaces ts).eraseDups.filter (isMatched m ts)).Nodup :=
    (nodup_eraseDups _).filter _
  refine ((List.perm_ext_iff_of_nodup (nodup_eraseDups _) hnodup).mpr fun face => ?_).length_eq
  have hsorted := map_sortedThrows_perm (w := fun t => (t.valid, t.matched, t.face))
    (fun _ _ => rfl) sorting (withMatches m ts)
  rw [← mem_matchedFaces_withMatches m h, mem_matchedFaces, ← hsorted.mem_iff]
  exact mem_matchedFaces

theorem map_tally_markedThrows (matching : Option (Matching Number)) (ts : List Throw) :
    (markedThrows matching ts).map tally = ts.map tally := by
  cases matching with
  | none => rfl
  | some m =>
    rw [markedThrows, withMatches, List.map_map]
    refine List.map_congr_left fun t _ => ?_
    rw [Function.comp_apply]
    split <;> rfl

theorem totals_sortedThrows (matching : Option (Matching Number)) (sorting : Option Sorting)
    (ts : List Throw) : totals ((sortedThrows sorting (markedThrows matching ts)).map Throw.status) =
      totals (ts.map Throw.status) := by
  have hsorted := map_sortedThrows_perm (w := tally) (fun _ _ => rfl) sorting
    (markedThrows matching ts)
  rw [map_tally_markedThrows] at hsorted
  exact totals_of_perm hsorted

end Throws

/-- A die is worth the number of faces that it matched if it asks for that, or its successes less its
failures if it counts them, or the sum of its valid throws. -/
def Lawful (matching counting : Bool) (o : Outcome) : Prop :=
  match matching, counting with
  | true, _ => o.value = .ofNat (matchedFaces o.throws).length
  | false, true => (o.status.successes, o.status.failures) = totals (o.throws.map Throw.status) ∧
      o.value = o.status.score ∧ o.status.success = some (Number.zero.less o.value)
  | false, false => o.value = Throw.total o.throws

theorem lawful_relabel {matching counting : Bool} {o : Outcome} (h : o.Lawful matching counting)
    (label : Option String) : (o.relabel label).Lawful matching counting := by
  unfold Lawful at h ⊢
  rwa [value, status_relabel, throws_relabel]

section Die

variable {count : Outcome} {faces : Option Outcome} {hasTargets : Bool}
  {matching : Option (Matching Number)} {sorting : Option Sorting} {ts : List Throw}

/-- How many faces are matched, if the matching asks for that. -/
def countedMatches (matching : Option (Matching Number)) (ts : List Throw) : Option Nat :=
  match matching with
  | some m => if m.counted then some (matchCount m ts) else none
  | none => none

theorem dieValue_some (counts : Option (Nat × Nat)) (n : Nat) (ts : List Throw) :
    dieValue counts (some n) ts = .ofNat n :=
  rfl

theorem status_ofDie_of_targets : (ofDie count faces true matching sorting ts).status =
    .ofCounts (dieValue (some (totals ((scoredThrows true ts).map Throw.status)))
      (countedMatches matching (scoredThrows true ts))
      (ofDie count faces true matching sorting ts).throws)
      (totals ((scoredThrows true ts).map Throw.status)) :=
  rfl

theorem status_ofDie_of_no_targets : (ofDie count faces false matching sorting ts).status =
    .ofValue (dieValue none (countedMatches matching ts)
      (ofDie count faces false matching sorting ts).throws) :=
  rfl

theorem value_ofDie_of_matches {n : Nat}
    (h : countedMatches matching (scoredThrows hasTargets ts) = some n) :
    (ofDie count faces hasTargets matching sorting ts).value = .ofNat n := by
  cases hasTargets with
  | true => rw [value, status_ofDie_of_targets, h, Status.value_ofCounts, dieValue_some]
  | false =>
    rw [scoredThrows, if_neg Bool.false_ne_true] at h
    rw [value, status_ofDie_of_no_targets, h, Status.value_ofValue, dieValue_some]

/-- A die obeys the law over the throws that it shows. -/
theorem lawful_ofDie (h : ∀ t ∈ ts, t.matched = false) :
    (ofDie count faces hasTargets matching sorting ts).Lawful (matching.any Matching.counted)
      hasTargets := by
  have hscored : ∀ t ∈ scoredThrows hasTargets ts, t.matched = false :=
    forall_scoredThrows (fun _ _ _ ht => ht) h
  cases hcounted : matching.any Matching.counted with
  | true =>
    obtain ⟨m, rfl, hm⟩ := (Option.any_eq_true _ _).mp hcounted
    have hmatches : countedMatches (some m) (scoredThrows hasTargets ts) =
        some (matchCount m (scoredThrows hasTargets ts)) := if_pos hm
    rw [Lawful, value_ofDie_of_matches hmatches, throws_ofDie, markedThrows,
      length_matchedFaces_sortedThrows m sorting hscored]
  | false =>
    have hmatches (us : List Throw) : countedMatches matching us = none := by
      cases matching with
      | none => rfl
      | some m => exact if_neg (by simpa using hcounted)
    cases hasTargets with
    | true =>
      have htotals := totals_sortedThrows matching sorting (scoredThrows true ts)
      rw [Lawful, throws_ofDie, htotals, value, status_ofDie_of_targets, hmatches]
      exact ⟨rfl, rfl, rfl⟩
    | false =>
      rw [Lawful, value, status_ofDie_of_no_targets, hmatches]
      rfl

theorem scored_throws_ofDie :
    ∀ t ∈ (ofDie count faces true matching sorting ts).throws, t.Scored := by
  have hscored : ∀ t ∈ scoredThrows true ts, t.Scored :=
    List.forall_mem_map.mpr fun t _ => Throw.scored_score t
  exact forall_sortedThrows (fun _ _ ht => ht) (forall_markedThrows (fun _ ht => ht) hscored)

end Die

end Outcome

end DiceNotation

import DiceNotation.Proofs.Number.Range
import DiceNotation.Proofs.Outcome.Assembled
import DiceNotation.Proofs.Stage.Restamping

/-! A group over one die, and the die by itself after the same stages. The group judges the throws
and sums them up again, the die counts for each throw; both come to the same. -/

namespace DiceNotation

open Stage

namespace Outcome

/-- A group over one die came out as the die by itself: the same value and counts, and throws with
the same faces and the same fate in the same places. -/
structure Flattens (group die : Outcome) : Prop where
  value : group.value = die.value
  successes : group.status.successes = die.status.successes
  failures : group.status.failures = die.status.failures
  success : group.status.success = die.status.success
  throws : ∃ member, group.operands = [member] ∧
    member.throws.map Throw.flags = die.throws.map Throw.flags

theorem Flattens.relabel {g o : Outcome} (h : g.Flattens o) (label label' : Option String) :
    (g.relabel label).Flattens (o.relabel label') where
  value := by simpa only [Outcome.value, status_relabel] using h.value
  successes := by simpa only [status_relabel] using h.successes
  failures := by simpa only [status_relabel] using h.failures
  success := by simpa only [status_relabel] using h.success
  throws := by simpa only [operands_relabel, throws_relabel] using h.throws

variable {count : Outcome} {faces : Option Outcome} {ts : List Throw} {ss : List Status}

theorem ofDie_plain (label : Option String) :
    (ofDie count faces false none none ts).relabel label =
      ⟨.ofValue (Throw.total ts), .die count faces ts, label⟩ := by
  cases label <;> rfl

theorem withEntries_die (status : Status) (label : Option String) (h : ts.length = ss.length) :
    withEntries [⟨status, .die count faces ts, label⟩] ss =
      [⟨{ status with value := Throw.total (Throw.restamp ts ss) },
        .die count faces (Throw.restamp ts ss), label⟩] := by
  have hpool : pooled? [⟨status, .die count faces ts, label⟩] =
      some ⟨status, .die count faces ts, label⟩ := rfl
  simp only [withEntries, hpool, refill, Throw.refill_eq_restamp h, resum]

/-- A score tells what was counted for a throw, and counts nothing itself. -/
theorem totals_score (ts : List Throw) :
    totals ((ts.map score).map Throw.status) = totals (ts.map Throw.status) := by
  induction ts with
  | nil => rfl
  | cons t ts ih =>
    obtain ⟨value, success, heq⟩ := score_eq t
    simp only [List.map_cons, totals, ih, heq]

theorem flags_score (ts : List Throw) : (ts.map score).map Throw.flags = ts.map Throw.flags := by
  rw [List.map_map]
  refine List.map_congr_left fun t _ => ?_
  obtain ⟨value, success, heq⟩ := score_eq t
  rw [Function.comp_apply, heq]
  rfl

theorem standing_judge (ss : List Status) :
    (ss.map judge).map (fun s => (s.valid, s.dropped)) = ss.map fun s => (s.valid, s.dropped) := by
  rw [List.map_map]
  refine List.map_congr_left fun s _ => ?_
  rw [Function.comp_apply]
  unfold judge
  split <;> rfl

theorem flags_of_agrees {ss ss' : List Status} (h : List.Forall₂ Agrees ss ss') (ts : List Throw) :
    (Throw.restamp ts ss).map Throw.flags = (Throw.restamp ts ss').map Throw.flags := by
  have hstanding : ss.map (fun s => (s.valid, s.dropped)) = ss'.map fun s => (s.valid, s.dropped) := by
    induction h with
    | nil => rfl
    | cons hs _ ih => rw [List.map_cons, List.map_cons, hs.standing, ih]
  rw [Throw.map_flags_restamp, Throw.map_flags_restamp, hstanding]

theorem ofDie_targets (ts : List Throw) : ofDie count faces true none none ts =
    ⟨.ofCounts (Status.balance (totals (ts.map Throw.status))) (totals (ts.map Throw.status)),
      .die count faces (ts.map score), none⟩ := by
  simp only [ofDie, if_true, dieValue, totals_score]

/-- With targets, both are worth the successes less the failures. -/
theorem flattens_of_targets (status : Status) (label : Option String) {ss' : List Status}
    (h : ts.length = ss.length) (h' : ts.length = ss'.length) (hagrees : List.Forall₂ Agrees ss ss') :
    (ofGroup [⟨status, .die count faces ts, label⟩] true ss).Flattens
      (ofDie count faces true none none (Throw.restamp ts ss')) := by
  have hjudged : ts.length = (ss.map judge).length := by rw [h, List.length_map]
  have hflags : (Throw.restamp ts (ss.map judge)).map Throw.flags =
      ((Throw.restamp ts ss').map score).map Throw.flags := by
    rw [flags_score, ← flags_of_agrees hagrees, Throw.map_flags_restamp, standing_judge,
      ← Throw.map_flags_restamp]
  rw [ofDie_targets, Throw.map_status_restamp h', ← totals_of_agrees hagrees, ofGroup, if_pos rfl]
  dsimp only
  generalize Status.ofCounts (Status.balance (totals ss)) (totals ss) = result
  exact ⟨rfl, rfl, rfl, rfl, _, withEntries_die status label hjudged, hflags⟩

/-- Without targets, both are worth the sum of the valid throws. -/
theorem flattens_of_no_targets (label : Option String) (h : ts.length = ss.length)
    (hint : (ofGroup [⟨.ofValue (Throw.total ts), .die count faces ts, label⟩] false ss).value.isInt =
      true) :
    (ofGroup [⟨.ofValue (Throw.total ts), .die count faces ts, label⟩] false ss).Flattens
      (ofDie count faces false none none (Throw.restamp ts ss)) := by
  rw [ofGroup, if_neg Bool.false_ne_true, withEntries_die _ label h] at hint ⊢
  exact ⟨Number.zero_add_of_isInt hint, rfl, rfl, rfl, _, rfl, rfl⟩

/-- The stages of the group, and the same stages on the throws of the die with the counting last. -/
theorem flattens_through (group : List (Modifier Number)) (label : Option String) (hline : InLine ts)
    (hint : (ofGroup [⟨.ofValue (Throw.total ts), .die count faces ts, label⟩]
      (group.any Modifier.isTarget)
      (Entry.statuses (through group (Entry.ofThrows ts)))).value.isInt = true) :
    (ofGroup [⟨.ofValue (Throw.total ts), .die count faces ts, label⟩] (group.any Modifier.isTarget)
        (Entry.statuses (through group (Entry.ofThrows ts)))).Flattens
      (ofDie count faces (group.any Modifier.isTarget) none none (Throw.restamp ts
        ((through (countLast group) (Entry.ofThrows ts)).map Entry.status))) := by
  have hrising := rising_ofThrows hline
  have hmarks := forall₂_through group hrising
  have hlength := length_of_marks hmarks
  have hlength' := length_of_marks (forall₂_through (countLast group) hrising)
  rw [statuses_eq_map hmarks] at hint ⊢
  cases htargets : group.any Modifier.isTarget with
  | true =>
    have hagrees : List.Forall₂ Agrees ((through group (Entry.ofThrows ts)).map Entry.status)
        ((through (countLast group) (Entry.ofThrows ts)).map Entry.status) :=
      List.forall₂_map_left_iff.mpr <| List.forall₂_map_right_iff.mpr <|
        forall₂_agrees_countLast group hrising
    exact flattens_of_targets _ label hlength hlength' hagrees
  | false =>
    rw [htargets] at hint
    rw [countLast_eq_self htargets]
    exact flattens_of_no_targets label hlength hint

end Outcome

end DiceNotation

import DiceNotation.Proofs.Outcome.Parts
import DiceNotation.Proofs.Stage.Throwing

/-! What the modifiers of a group leave of its members. Wherever they reach, statuses are marked and
values summed anew; no part comes or goes, and each stays where it stood. -/

namespace DiceNotation

namespace Outcome

mutual
/-- An outcome with marks on its pool, and with new values above them. -/
inductive Revised : Outcome → Outcome → Prop
  | die {s s' : Status} {count : Outcome} {faces : Option Outcome} {ts us : List Throw}
      {label : Option String} (order : s'.order = s.order)
      (throws : List.Forall₂ (Throw.Marks true) ts us) :
      Revised ⟨s, .die count faces ts, label⟩ ⟨s', .die count faces us, label⟩
  | diceSum {s s' : Status} {head head' : Outcome} {tail tail' : List (Sign × Outcome)}
      {label : Option String} (order : s'.order = s.order) (first : Revised head head')
      (others : RevisedTail tail tail') :
      Revised ⟨s, .diceSum head tail, label⟩ ⟨s', .diceSum head' tail', label⟩
  | status {s s' : Status} {body : Body} {label : Option String} (order : s'.order = s.order)
      (value : s'.value = s.value) : Revised ⟨s, body, label⟩ ⟨s', body, label⟩

inductive RevisedTail : List (Sign × Outcome) → List (Sign × Outcome) → Prop
  | nil : RevisedTail [] []
  | cons {op : Sign} {o o' : Outcome} {tail tail' : List (Sign × Outcome)} (first : Revised o o')
      (others : RevisedTail tail tail') : RevisedTail ((op, o) :: tail) ((op, o') :: tail')
end

theorem Revised.order_eq {o o' : Outcome} (h : Revised o o') :
    o'.status.order = o.status.order := by
  cases h <;> assumption

theorem RevisedTail.map_order {tail tail' : List (Sign × Outcome)} (h : RevisedTail tail tail') :
    tail'.map (fun t => t.2.status.order) = tail.map (fun t => t.2.status.order) := by
  induction tail generalizing tail' with
  | nil =>
    cases h
    rfl
  | cons _ _ ih =>
    cases h with
    | cons first others => simp only [List.map_cons, first.order_eq, ih others]

theorem RevisedTail.length_eq {tail tail' : List (Sign × Outcome)} (h : RevisedTail tail tail') :
    tail'.length = tail.length := by
  simpa using congrArg List.length h.map_order

mutual
/-- Marked statuses that go back into their pool, followed by new sums, revise the outcome. -/
theorem revised_refill : (o : Outcome) → {ss : List Status} →
    List.Forall₂ (Status.Marks true) o.pool ss → (rest : List Status) →
    ∃ o', o.refill (ss ++ rest) = (o', rest) ∧ o.Revised o'.resum
  | ⟨s, .number, label⟩, ss, h, rest => by
    obtain rfl := List.forall₂_nil_left_iff.mp h
    exact ⟨_, rfl, .status rfl rfl⟩
  | ⟨s, .die count faces ts, label⟩, ss, h, rest => by
    obtain ⟨us, hus, hmarks⟩ := Throw.refill_of_marks h rest
    refine ⟨⟨s, .die count faces us, label⟩, ?_, .die rfl hmarks⟩
    simp only [refill, hus]
  | ⟨s, .diceSum head tail, label⟩, ss, h, rest => by
    obtain ⟨ss₁, ss₂, h₁, h₂, rfl⟩ := forall₂_append_split h
    obtain ⟨head', hhead, first⟩ := revised_refill head h₁ (ss₂ ++ rest)
    obtain ⟨tail', htail, others⟩ := revised_refillTail tail h₂ rest
    refine ⟨⟨s, .diceSum head' tail', label⟩, ?_, .diceSum rfl first others⟩
    simp only [refill, List.append_assoc, hhead, htail]
  | ⟨s, .arithmetic _ _, label⟩, ss, h, rest | ⟨s, .group _, label⟩, ss, h, rest
  | ⟨s, .function _ _, label⟩, ss, h, rest | ⟨s, .replacement _ _, label⟩, ss, h, rest => by
    obtain ⟨s', rest', hs, hrest, rfl⟩ := List.forall₂_cons_left_iff.mp h
    obtain rfl := List.forall₂_nil_left_iff.mp hrest
    exact ⟨_, rfl, .status hs.order hs.value⟩

theorem revised_refillTail : (tail : List (Sign × Outcome)) → {ss : List Status} →
    List.Forall₂ (Status.Marks true) (poolTail tail) ss → (rest : List Status) →
    ∃ tail', refillTail tail (ss ++ rest) = (tail', rest) ∧ RevisedTail tail (resumTail tail')
  | [], ss, h, rest => by
    obtain rfl := List.forall₂_nil_left_iff.mp h
    exact ⟨[], rfl, .nil⟩
  | (op, o) :: tail, ss, h, rest => by
    obtain ⟨ss₁, ss₂, h₁, h₂, rfl⟩ := forall₂_append_split h
    obtain ⟨o', ho, first⟩ := revised_refill o h₁ (ss₂ ++ rest)
    obtain ⟨tail', htail, others⟩ := revised_refillTail tail h₂ rest
    refine ⟨(op, o') :: tail', ?_, .cons first others⟩
    simp only [refillTail, List.append_assoc, ho, htail]
end

theorem revised_withStatuses {members : List Outcome} {ss : List Status}
    (h : List.Forall₂ (Status.Marks true) (members.map status) ss) :
    List.Forall₂ Revised members (withStatuses members ss) := by
  induction members generalizing ss with
  | nil => exact .nil
  | cons o members ih =>
    obtain ⟨s, ss, hs, hss, rfl⟩ := List.forall₂_cons_left_iff.mp h
    obtain ⟨old, body, label⟩ := o
    exact .cons (.status hs.order hs.value) (ih hss)

theorem eq_of_pooled? {members : List Outcome} {o : Outcome} (h : pooled? members = some o) :
    members = [o] ∧ o.isDice = true := by
  match members with
  | [p] =>
    simp only [pooled?, Option.ite_none_right_eq_some, Option.some.injEq] at h
    exact ⟨by rw [h.2], h.2 ▸ h.1⟩
  | [] | _ :: _ :: _ => simp [pooled?] at h

/-- Marks on the entries of a group revise its members and no more. -/
theorem revised_withEntries {members : List Outcome} {ss : List Status}
    (h : List.Forall₂ (Status.Marks true) (entries members) ss) :
    List.Forall₂ Revised members (withEntries members ss) := by
  unfold entries at h
  unfold withEntries
  split at h
  · rename_i o hpool
    obtain ⟨o', ho, hrevised⟩ := revised_refill o h []
    rw [List.append_nil] at ho
    rw [(eq_of_pooled? hpool).1, ho]
    exact .cons hrevised .nil
  · exact revised_withStatuses h

end Outcome

end DiceNotation

import DiceNotation.Proofs.Number.Sums
import DiceNotation.Proofs.Outcome.Entries

/-! The totals above a pool. Once statuses have gone back into the pool, each die and each sum of
dice that the pool is collected through is worth what its own part of the pool is worth: the two
recursions, the one that collects and the one that sums, pass through the same terms and leave out
the same ones. -/

namespace DiceNotation

namespace Status

/-- What the valid ones are worth, as integers. -/
def worths (ss : List Status) : List Int :=
  (ss.filter valid).map fun s => s.value.toInt64.toInt

/-- The statuses, those at the chosen places no longer valid. -/
def clear (chosen : Nat → Bool) (ss : List Status) : List Status :=
  ss.mapIdx fun i s => if chosen i then { s with valid := false } else s

@[simp] theorem length_clear (chosen : Nat → Bool) (ss : List Status) :
    (clear chosen ss).length = ss.length := by
  simp [clear]

theorem isInt_of_mem_clear {chosen : Nat → Bool} {ss : List Status}
    (h : ∀ s ∈ ss, s.value.isInt = true) : ∀ s ∈ clear chosen ss, s.value.isInt = true := by
  intro s hs
  obtain ⟨i, hi, rfl⟩ := List.mem_mapIdx.mp hs
  have hvalue := h _ (List.getElem_mem hi)
  split
  · exact hvalue
  · exact hvalue

end Status

namespace Outcome

/-- What the valid entries of the pool are worth together. -/
def poolSum (o : Outcome) : Int :=
  (Status.worths o.pool).sum

mutual
/-- The dice and the sums of dice that a pool is collected through, each before those inside of it.
-/
def poolTotals : Outcome → List Outcome
  | ⟨s, .die count faces throws, label⟩ => [⟨s, .die count faces throws, label⟩]
  | ⟨s, .diceSum head tail, label⟩ =>
    ⟨s, .diceSum head tail, label⟩ :: (head.poolTotals ++ poolTotalsTail tail)
  | _ => []

def poolTotalsTail : List (Sign × Outcome) → List Outcome
  | [] => []
  | (_, o) :: rest => o.poolTotals ++ poolTotalsTail rest
end

mutual
/-- The outcome without the values of the dice and the sums that its pool is collected through. -/
def untotaled : Outcome → Outcome
  | ⟨s, .die count faces throws, label⟩ =>
    ⟨{ s with value := .zero }, .die count faces throws, label⟩
  | ⟨s, .diceSum head tail, label⟩ =>
    ⟨{ s with value := .zero }, .diceSum head.untotaled (untotaledTail tail), label⟩
  | o => o

def untotaledTail : List (Sign × Outcome) → List (Sign × Outcome)
  | [] => []
  | (op, o) :: rest => (op, o.untotaled) :: untotaledTail rest
end

/-- What is added up for the value of a die or of a sum of dice: its valid throws, or the pools of
its terms. -/
def summands : Outcome → List Int
  | ⟨_, .diceSum head tail, _⟩ => (head :: tail.map Prod.snd).map poolSum
  | o => Status.worths o.pool

/-- The outcome with the chosen entries of its pool no longer valid. -/
def clear (o : Outcome) (chosen : Nat → Bool) : Outcome :=
  (o.refill (Status.clear chosen o.pool)).1

theorem pool_clear (o : Outcome) (chosen : Nat → Bool) :
    (o.clear chosen).pool = Status.clear chosen o.pool := by
  obtain ⟨o', ho, hpool⟩ := pool_refill o (Status.length_clear chosen o.pool) []
  rw [List.append_nil] at ho
  rw [clear, ho]
  exact hpool

mutual
/-- New sums change nothing but the values that they are put into. -/
theorem untotaled_resum : (o : Outcome) → o.resum.untotaled = o.untotaled
  | ⟨_, .die .., _⟩ => rfl
  | ⟨_, .diceSum head tail, _⟩ => by
    simp only [resum, untotaled, untotaled_resum head, untotaledTail_resumTail tail]
  | ⟨_, .number, _⟩ | ⟨_, .arithmetic .., _⟩ | ⟨_, .group _, _⟩ | ⟨_, .function .., _⟩
  | ⟨_, .replacement .., _⟩ => rfl

theorem untotaledTail_resumTail : (tail : List (Sign × Outcome)) →
    untotaledTail (resumTail tail) = untotaledTail tail
  | [] => rfl
  | (_, o) :: rest => by
    simp only [resumTail, untotaledTail, untotaled_resum o, untotaledTail_resumTail rest]
end

/-- The sums that are formed for the values of an outcome are in range. -/
def SumsFit (o : Outcome) : Prop :=
  ∀ p ∈ o.poolTotals, ∀ k, Number.Fits (p.summands.take k).sum

/-- Each die and each sum of dice is worth what its own pool is worth. -/
def Summed (o : Outcome) : Prop :=
  ∀ p ∈ o.poolTotals, p.value.Equals p.poolSum

theorem poolSum_resum (o : Outcome) : o.resum.poolSum = o.poolSum := by
  rw [poolSum, pool_resum, poolSum]

theorem sum_worths_append (ss ss' : List Status) :
    (Status.worths (ss ++ ss')).sum = (Status.worths ss).sum + (Status.worths ss').sum := by
  rw [Status.worths, List.filter_append, List.map_append, List.sum_append]
  rfl

theorem sum_worths_poolTail (tail : List (Sign × Outcome)) :
    (Status.worths (poolTail tail)).sum = ((tail.map Prod.snd).map poolSum).sum := by
  induction tail with
  | nil => rfl
  | cons t tail ih =>
    rw [poolTail, sum_worths_append, ih]
    rfl

/-- What is added up comes to the sum of the pool. -/
theorem sum_summands_diceSum (s : Status) (head : Outcome) (tail : List (Sign × Outcome))
    (label : Option String) : (summands ⟨s, .diceSum head tail, label⟩).sum =
      poolSum ⟨s, .diceSum head tail, label⟩ := by
  rw [summands, poolSum, pool, sum_worths_append, sum_worths_poolTail]
  rfl

theorem equals_values {ss : List Status} (h : ∀ s ∈ ss, s.value.isInt = true) :
    List.Forall₂ Number.Equals ((ss.filter Status.valid).map Status.value) (Status.worths ss) := by
  refine List.forall₂_map_left_iff.mpr (List.forall₂_map_right_iff.mpr ?_)
  refine List.forall₂_same.mpr fun s hs => ?_
  obtain ⟨i, hi⟩ := Number.exists_of_isInt (h s (List.mem_of_mem_filter hs))
  rw [hi]
  exact Number.equals_int i

theorem total_eq (ts : List Throw) : Throw.total ts =
    Number.sum (((ts.map Throw.status).filter Status.valid).map Status.value) := by
  rw [Throw.total, List.filter_map, List.map_map]
  rfl

theorem equals_contribution_of_status {s : Status} (h : s.value.isInt = true) :
    (if s.valid then s.value else Number.zero).Equals (Status.worths [s]).sum := by
  obtain ⟨i, hi⟩ := Number.exists_of_isInt h
  cases hvalid : s.valid with
  | true =>
    have hone : Status.worths [s] = [i.toInt] := by simp [Status.worths, hvalid, hi, Number.toInt64]
    rw [hone, List.sum_singleton, if_pos rfl, hi]
    exact Number.equals_int i
  | false =>
    have hnone : Status.worths [s] = [] := by simp [Status.worths, hvalid]
    rw [hnone]
    exact Number.equals_int 0

mutual
theorem equals_resum : (o : Outcome) → (∀ s ∈ o.pool, s.value.isInt = true) → o.SumsFit →
    o.resum.contribution.Equals o.poolSum ∧ o.resum.Summed
  | ⟨s, .number, label⟩, _, _ => ⟨Number.equals_int 0, List.forall_mem_nil _⟩
  | ⟨s, .die count faces ts, label⟩, hint, hfits => by
    have hvalue : (Throw.total ts).Equals (poolSum ⟨s, .die count faces ts, label⟩) := by
      rw [total_eq]
      exact Number.equals_sum (equals_values hint) (hfits _ List.mem_cons_self)
    exact ⟨hvalue, List.forall_mem_singleton.mpr hvalue⟩
  | ⟨s, .diceSum head tail, label⟩, hint, hfits => by
    obtain ⟨hhead, htail⟩ := List.forall_mem_append.mp hint
    obtain ⟨hroot, hinside⟩ := List.forall_mem_cons.mp hfits
    obtain ⟨hfirst, hothers⟩ := List.forall_mem_append.mp hinside
    obtain ⟨first, hsummed⟩ := equals_resum head hhead hfirst
    obtain ⟨others, hsummeds⟩ := equals_resumTail tail htail hothers
    have hvalue : (resum ⟨s, .diceSum head tail, label⟩).value.Equals
        (poolSum ⟨s, .diceSum head tail, label⟩) := by
      rw [← sum_summands_diceSum]
      exact Number.equals_sum (.cons first others) hroot
    have hown : (resum ⟨s, .diceSum head tail, label⟩).value.Equals
        (resum ⟨s, .diceSum head tail, label⟩).poolSum := by
      rw [poolSum_resum]
      exact hvalue
    exact ⟨hvalue, List.forall_mem_cons.mpr ⟨hown, List.forall_mem_append.mpr ⟨hsummed, hsummeds⟩⟩⟩
  | ⟨s, .arithmetic _ _, label⟩, hint, _ | ⟨s, .group _, label⟩, hint, _
  | ⟨s, .function _ _, label⟩, hint, _ | ⟨s, .replacement _ _, label⟩, hint, _ =>
    ⟨equals_contribution_of_status (hint s List.mem_cons_self), List.forall_mem_nil _⟩

theorem equals_resumTail : (tail : List (Sign × Outcome)) →
    (∀ s ∈ poolTail tail, s.value.isInt = true) →
    (∀ p ∈ poolTotalsTail tail, ∀ k, Number.Fits (p.summands.take k).sum) →
    List.Forall₂ Number.Equals ((resumTail tail).map fun t => t.2.contribution)
      ((tail.map Prod.snd).map poolSum) ∧
    ∀ p ∈ poolTotalsTail (resumTail tail), p.value.Equals p.poolSum
  | [], _, _ => ⟨.nil, List.forall_mem_nil _⟩
  | (_, o) :: tail, hint, hfits => by
    obtain ⟨ho, htail⟩ := List.forall_mem_append.mp hint
    obtain ⟨hfirst, hothers⟩ := List.forall_mem_append.mp hfits
    obtain ⟨first, hsummed⟩ := equals_resum o ho hfirst
    obtain ⟨others, hsummeds⟩ := equals_resumTail tail htail hothers
    exact ⟨.cons first others, List.forall_mem_append.mpr ⟨hsummed, hsummeds⟩⟩
end

/-- Whichever entries of a pool are no longer valid: with new sums every die and every sum of dice
that the pool is collected through is worth its own valid entries, and nothing else has changed. -/
theorem summed_resum_clear {o : Outcome} (chosen : Nat → Bool)
    (hint : ∀ s ∈ o.pool, s.value.isInt = true) (hfits : (o.clear chosen).SumsFit) :
    (o.clear chosen).pool = Status.clear chosen o.pool ∧ (o.clear chosen).resum.Summed ∧
      (o.clear chosen).resum.untotaled = (o.clear chosen).untotaled := by
  have hpool := pool_clear o chosen
  refine ⟨hpool, (equals_resum _ ?_ hfits).2, untotaled_resum _⟩
  rw [hpool]
  exact Status.isInt_of_mem_clear hint

/-- Four and five, less a two and three more in a sum of their own; without the five the sums are
six, four and two. -/
theorem summed_resum_clear_five :
    let dice (faces : List Int64) : Outcome := .bare (.die (.number (.int 1)) none
      (faces.map fun face => .fresh (.sides 6) face 0)) (.int 0)
    let o : Outcome := .bare (.diceSum (dice [4, 5])
      [(.minus, .bare (.diceSum (dice [2]) [(.plus, .number (.int 3))]) (.int 5))]) (.int 4)
    (∀ s ∈ o.pool, s.value.isInt = true) ∧ (o.clear (· == 1)).SumsFit ∧
      (o.clear (· == 1)).resum.value.Equals 6 ∧
      (o.clear (· == 1)).resum.poolTotals.map (fun p => p.value.toInt64) = [6, 4, 2, 2] := by
  intro dice o
  have hint : ∀ s ∈ o.pool, s.value.isInt = true := by decide +kernel
  have hnonneg : ∀ p ∈ (o.clear (· == 1)).poolTotals, (∀ n ∈ p.summands, 0 ≤ n) ∧
      Number.Fits p.summands.sum := by decide +kernel
  have hfits : (o.clear (· == 1)).SumsFit := by
    intro p hp k
    obtain ⟨hsummands, hsum⟩ := hnonneg p hp
    rw [← Int.zero_add (p.summands.sum)] at hsum
    simpa using Number.fits_add_sum_take hsummands (by decide) hsum k
  obtain ⟨-, hsummed, -⟩ := summed_resum_clear (· == 1) hint hfits
  have hroot : (o.clear (· == 1)).resum.value.Equals (o.clear (· == 1)).resum.poolSum :=
    hsummed _ List.mem_cons_self
  exact ⟨hint, hfits, hroot, by decide +kernel⟩

end Outcome

end DiceNotation

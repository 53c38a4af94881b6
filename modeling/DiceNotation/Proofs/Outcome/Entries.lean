import DiceNotation.Proofs.Outcome.Revising

/-! The entries of a group before and after its modifiers. What the modifiers left is found again in
the members: in the pool of a lone die or sum of dice, and otherwise in the members themselves. -/

namespace DiceNotation

theorem exists_append_of_length {α : Type} {xs : List α} {n m : Nat} (h : xs.length = n + m) :
    ∃ ys zs, ys.length = n ∧ zs.length = m ∧ xs = ys ++ zs := by
  refine ⟨xs.take n, xs.drop n, ?_, ?_, (List.take_append_drop n xs).symm⟩
  · rw [List.length_take, h, Nat.min_eq_left (Nat.le_add_right n m)]
  · rw [List.length_drop, h, Nat.add_sub_cancel_left]

/-- As many statuses as there are throws are found again in them. -/
theorem Throw.map_status_refill {ts : List Throw} {ss : List Status} (h : ss.length = ts.length)
    (rest : List Status) : ∃ us, refill ts (ss ++ rest) = (us, rest) ∧ us.map status = ss := by
  induction ts generalizing ss with
  | nil =>
    obtain rfl := List.length_eq_zero_iff.mp h
    exact ⟨[], rfl, rfl⟩
  | cons t ts ih =>
    cases ss with
    | nil => simp at h
    | cons s ss =>
      obtain ⟨us, hus, hstatuses⟩ := ih (Nat.succ.inj h)
      exact ⟨{ t with status := s } :: us, by rw [List.cons_append, refill, hus],
        congrArg (s :: ·) hstatuses⟩

namespace Outcome

mutual
/-- New sums stand above the pool and not in it. -/
theorem pool_resum : (o : Outcome) → o.resum.pool = o.pool
  | ⟨_, .die .., _⟩ => rfl
  | ⟨_, .diceSum head tail, _⟩ => by
    simp only [resum, pool, pool_resum head, poolTail_resumTail tail]
  | ⟨_, .number, _⟩ | ⟨_, .arithmetic .., _⟩ | ⟨_, .group _, _⟩ | ⟨_, .function .., _⟩
  | ⟨_, .replacement .., _⟩ => rfl

theorem poolTail_resumTail : (tail : List (Sign × Outcome)) →
    poolTail (resumTail tail) = poolTail tail
  | [] => rfl
  | (_, o) :: rest => by simp only [resumTail, poolTail, pool_resum o, poolTail_resumTail rest]
end

mutual
/-- As many statuses as the pool has are found again in it. -/
theorem pool_refill : (o : Outcome) → {ss : List Status} → ss.length = o.pool.length →
    (rest : List Status) → ∃ o', o.refill (ss ++ rest) = (o', rest) ∧ o'.pool = ss
  | ⟨s, .number, label⟩, ss, h, rest => by
    obtain rfl := List.length_eq_zero_iff.mp h
    exact ⟨_, rfl, rfl⟩
  | ⟨s, .die count faces ts, label⟩, ss, h, rest => by
    rw [pool, List.length_map] at h
    obtain ⟨us, hus, hstatuses⟩ := Throw.map_status_refill h rest
    exact ⟨⟨s, .die count faces us, label⟩, by simp only [refill, hus], hstatuses⟩
  | ⟨s, .diceSum head tail, label⟩, ss, h, rest => by
    rw [pool, List.length_append] at h
    obtain ⟨ss₁, ss₂, h₁, h₂, rfl⟩ := exists_append_of_length h
    obtain ⟨head', hhead, hpool⟩ := pool_refill head h₁ (ss₂ ++ rest)
    obtain ⟨tail', htail, hpools⟩ := poolTail_refillTail tail h₂ rest
    refine ⟨⟨s, .diceSum head' tail', label⟩, ?_, ?_⟩
    · simp only [refill, List.append_assoc, hhead, htail]
    · rw [pool, hpool, hpools]
  | ⟨s, .arithmetic _ _, label⟩, ss, h, rest | ⟨s, .group _, label⟩, ss, h, rest
  | ⟨s, .function _ _, label⟩, ss, h, rest | ⟨s, .replacement _ _, label⟩, ss, h, rest => by
    obtain ⟨s', rfl⟩ := List.length_eq_one_iff.mp h
    exact ⟨_, rfl, rfl⟩

theorem poolTail_refillTail : (tail : List (Sign × Outcome)) → {ss : List Status} →
    ss.length = (poolTail tail).length → (rest : List Status) →
    ∃ tail', refillTail tail (ss ++ rest) = (tail', rest) ∧ poolTail tail' = ss
  | [], ss, h, rest => by
    obtain rfl := List.length_eq_zero_iff.mp h
    exact ⟨[], rfl, rfl⟩
  | (op, o) :: tail, ss, h, rest => by
    rw [poolTail, List.length_append] at h
    obtain ⟨ss₁, ss₂, h₁, h₂, rfl⟩ := exists_append_of_length h
    obtain ⟨o', ho, hpool⟩ := pool_refill o h₁ (ss₂ ++ rest)
    obtain ⟨tail', htail, hpools⟩ := poolTail_refillTail tail h₂ rest
    refine ⟨(op, o') :: tail', ?_, ?_⟩
    · simp only [refillTail, List.append_assoc, ho, htail]
    · rw [poolTail, hpool, hpools]
end

theorem isDice_refill_resum (o : Outcome) (ss : List Status) :
    (o.refill ss).1.resum.isDice = o.isDice := by
  obtain ⟨s, body, label⟩ := o
  cases body with
  | die | diceSum | number => rfl
  | arithmetic | group | function | replacement => cases ss <;> rfl

theorem map_status_withStatuses {members : List Outcome} {ss : List Status}
    (h : ss.length = members.length) : (withStatuses members ss).map status = ss := by
  induction members generalizing ss with
  | nil =>
    obtain rfl := List.length_eq_zero_iff.mp h
    rfl
  | cons o members ih =>
    cases ss with
    | nil => simp at h
    | cons s ss => exact congrArg (s :: ·) (ih (Nat.succ.inj h))

theorem pooled?_withStatuses {members : List Outcome} {ss : List Status}
    (h : pooled? members = none) : pooled? (withStatuses members ss) = none := by
  match members, ss with
  | [], _ => rfl
  | [_], [] => exact h
  | [o], _ :: _ =>
    obtain ⟨_, body, _⟩ := o
    cases body with
    | die | diceSum => cases h
    | number | arithmetic | group | function | replacement => rfl
  | _ :: _ :: _, [] => rfl
  | _ :: _ :: _, [_] => rfl
  | _ :: _ :: _, _ :: _ :: _ => rfl

/-- The entries of the members are what the modifiers left. -/
theorem entries_withEntries {members : List Outcome} {ss : List Status}
    (h : ss.length = (entries members).length) : entries (withEntries members ss) = ss := by
  cases hpool : pooled? members with
  | none =>
    have hentries : entries members = members.map status := by simp only [entries, hpool]
    rw [hentries, List.length_map] at h
    have hnone : pooled? (withStatuses members ss) = none := pooled?_withStatuses hpool
    simp only [withEntries, hpool]
    simp only [entries, hnone, map_status_withStatuses h]
  | some o =>
    obtain ⟨rfl, hdice⟩ := eq_of_pooled? hpool
    have hentries : entries [o] = o.pool := by simp only [entries, hpool]
    rw [hentries] at h
    obtain ⟨o', ho, hstatuses⟩ := pool_refill o h []
    rw [List.append_nil] at ho
    have hdice' : o'.resum.isDice = true := by
      rw [← hdice, ← isDice_refill_resum o ss, ho]
    simp only [withEntries, hpool, ho]
    simp only [entries, pooled?, hdice', if_true, pool_resum, hstatuses]

end Outcome

end DiceNotation

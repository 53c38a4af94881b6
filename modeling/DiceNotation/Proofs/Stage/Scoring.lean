import DiceNotation.Outcome.Assembly
import DiceNotation.Proofs.Number.Range
import Mathlib.Algebra.BigOperators.Group.List.Basic
import Mathlib.Algebra.GroupWithZero.Nat

/-! Successes less failures. The scores of throws add up to the score of all of them together, as
long as the counts are in range; a sum in 64 bits knows no other condition. -/

namespace DiceNotation

open Stage

namespace Status

open Number

@[simp] theorem value_ofValue (value : Number) : (ofValue value).value = value :=
  rfl

@[simp] theorem value_ofCounts (value : Number) (counts : Nat × Nat) :
    (ofCounts value counts).value = value :=
  rfl

theorem score_eq_balance (s : Status) : s.score = balance (s.successes, s.failures) := by
  rw [score, balance]

theorem balance_zero : balance (0, 0) = Number.zero := by
  have hfits : Fits 0 := by decide
  have hnat : ofNat 0 = Number.zero := ofInt_of_fits hfits
  rw [balance, hnat]
  exact int_sub_int 0 0

theorem score_congr {s s' : Status} (hs : s'.successes = s.successes)
    (hf : s'.failures = s.failures) : s'.score = s.score := by
  rw [score, score, hs, hf]

/-- Balances add up for as long as their counts are in range. -/
theorem balance_add_balance {a b c d : Nat} (h : Fits (a + c : Nat)) (h' : Fits (b + d : Nat)) :
    balance (a, b) + balance (c, d) = balance (a + c, b + d) := by
  have ha := h.of_le (Nat.le_add_right a c)
  have hb := h'.of_le (Nat.le_add_right b d)
  have hc := h.of_le (Nat.le_add_left c a)
  have hd := h'.of_le (Nat.le_add_left d b)
  have hsum : (a - b : Int) + (c - d) = (a + c : Nat) - (b + d : Nat) := by omega
  rw [balance, balance, balance, ofNat_sub_ofNat ha hb, ofNat_sub_ofNat hc hd,
    ofNat_sub_ofNat h h', ofInt_add_ofInt (ha.sub hb) (hc.sub hd) (hsum ▸ h.sub h'), hsum]

end Status

namespace Throw

open Number

/-- A throw that is worth its successes less its failures. -/
def Scored (t : Throw) : Prop :=
  t.value = t.status.score

theorem scored_score (t : Throw) : (score t).Scored := by
  obtain ⟨value, success, hvalue, heq⟩ : ∃ value success, value = t.status.score ∧
      score t = { t with status := { t.status with value := value, success := success } } :=
    ⟨_, _, rfl, rfl⟩
  rw [heq]
  exact hvalue.trans (Status.score_congr rfl rfl)

theorem foldl_scored {ts : List Throw} (h : ∀ t ∈ ts, t.Scored) {a b : Nat}
    (hs : Fits (a + (totals (ts.map status)).1 : Nat))
    (hf : Fits (b + (totals (ts.map status)).2 : Nat)) :
    ((ts.filter valid).map value).foldl (· + ·) (Status.balance (a, b)) =
      Status.balance (a + (totals (ts.map status)).1, b + (totals (ts.map status)).2) := by
  induction ts generalizing a b with
  | nil =>
    rw [List.filter_nil, List.map_nil, List.map_nil, List.foldl_nil, totals, Nat.add_zero,
      Nat.add_zero]
  | cons t ts ih =>
    obtain ⟨ht, hts⟩ := List.forall_mem_cons.mp h
    rw [List.map_cons, totals] at hs hf ⊢
    cases hvalid : t.status.valid with
    | false =>
      simp only [hvalid, Bool.false_eq_true, if_false] at hs hf ⊢
      rw [List.filter_cons_of_neg (by simp [valid, hvalid])]
      exact ih hts hs hf
    | true =>
      simp only [hvalid, if_true, ← Nat.add_assoc] at hs hf ⊢
      have hscore : t.value = Status.balance (t.status.successes, t.status.failures) :=
        ht.trans (Status.score_eq_balance t.status)
      have hnext := Status.balance_add_balance (hs.of_le (Nat.le_add_right _ _))
        (hf.of_le (Nat.le_add_right _ _))
      rw [← hscore] at hnext
      rw [List.filter_cons_of_pos (p := valid) hvalid, List.map_cons, List.foldl_cons, hnext]
      exact ih hts hs hf

/-- Throws that are worth their scores are worth what they score together. -/
theorem total_eq_balance {ts : List Throw} (h : ∀ t ∈ ts, t.Scored)
    (hs : Fits (totals (ts.map status)).1) (hf : Fits (totals (ts.map status)).2) :
    total ts = Status.balance (totals (ts.map status)) := by
  have hsum := foldl_scored (a := 0) (b := 0) h (by simpa using hs) (by simpa using hf)
  rw [Nat.zero_add, Nat.zero_add, Status.balance_zero] at hsum
  exact hsum

end Throw

namespace Stage

/-- The totals are sums over the valid entries, in whatever order. -/
theorem totals_eq_sum (ss : List Status) : totals ss =
    (((ss.filter Status.valid).map Status.successes).sum,
      ((ss.filter Status.valid).map Status.failures).sum) := by
  induction ss with
  | nil => rfl
  | cons s ss ih => cases h : s.valid <;> simp [totals, ih, h]

/-- What the totals need to know of a throw. -/
def tally (t : Throw) : Bool × Nat × Nat :=
  (t.valid, t.status.successes, t.status.failures)

theorem totals_of_perm {ts us : List Throw} (h : (ts.map tally).Perm (us.map tally)) :
    totals (ts.map Throw.status) = totals (us.map Throw.status) := by
  have sums (count : Bool × Nat × Nat → Nat) : (((ts.map tally).filter Prod.fst).map count).sum =
      (((us.map tally).filter Prod.fst).map count).sum := ((h.filter _).map count).sum_eq
  have hsuccesses := sums fun r => r.2.1
  have hfailures := sums fun r => r.2.2
  simp only [List.filter_map, List.map_map] at hsuccesses hfailures
  simp only [totals_eq_sum, List.filter_map, List.map_map]
  exact Prod.ext hsuccesses hfailures

end Stage

end DiceNotation

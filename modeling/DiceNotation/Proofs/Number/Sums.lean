import Mathlib.Algebra.Order.BigOperators.Group.List
import Mathlib.Algebra.Order.Ring.Int
import DiceNotation.Proofs.Number.Range

/-! Sums of integers that are taken one after the other. They are exact as long as they stay in range
on the way, and a sum of natural numbers that ends in range has been there all the way. -/

namespace DiceNotation

namespace Number

/-- What natural numbers add to an integer does not leave the range and come back. -/
theorem fits_add_sum_take {ns : List Int} (hns : ∀ n ∈ ns, 0 ≤ n) {i : Int} (hi : Fits i)
    (h : Fits (i + ns.sum)) (k : Nat) : Fits (i + (ns.take k).sum) := by
  have htake : 0 ≤ (ns.take k).sum := List.sum_nonneg fun n hn => hns n (List.mem_of_mem_take hn)
  have hdrop : 0 ≤ (ns.drop k).sum := List.sum_nonneg fun n hn => hns n (List.mem_of_mem_drop hn)
  have hsum := List.sum_take_add_sum_drop ns k
  unfold Fits at hi h ⊢
  omega

theorem foldl_add_int {is : List Int64} {i : Int64}
    (h : ∀ k, Fits (i.toInt + ((is.map Int64.toInt).take k).sum)) :
    is.foldl (fun x j => x + int j) (int i) = ofInt (i.toInt + (is.map Int64.toInt).sum) := by
  induction is generalizing i with
  | nil =>
    rw [List.map_nil, List.sum_nil, Int.add_zero, ofInt_of_fits (fits_toInt i), Int64.ofInt_toInt]
    rfl
  | cons j is ih =>
    have hfits : Fits (i.toInt + j.toInt) := by simpa using h 1
    have hsum := toInt_add_of_fits hfits
    rw [List.foldl_cons, int_add_int_of_fits hfits, ih, hsum, List.map_cons, List.sum_cons,
      Int.add_assoc]
    intro k
    simpa [hsum, Int.add_assoc] using h (k + 1)

/-- Integers that are summed from zero, where no sum on the way leaves the range. -/
theorem equals_sum {ns : List Number} {is : List Int} (h : List.Forall₂ Equals ns is)
    (hfits : ∀ k, Fits (is.take k).sum) : (sum ns).Equals is.sum := by
  have hns : ∃ js : List Int64, ns = js.map int ∧ is = js.map Int64.toInt := by
    clear hfits
    induction h with
    | nil => exact ⟨[], rfl, rfl⟩
    | cons first _ ih =>
      obtain ⟨j, rfl, rfl⟩ := first
      obtain ⟨js, rfl, rfl⟩ := ih
      exact ⟨j :: js, rfl, rfl⟩
  obtain ⟨js, rfl, rfl⟩ := hns
  have hzero : (0 : Int64).toInt = 0 := rfl
  have hstart (i : Int) : (0 : Int64).toInt + i = i := by rw [hzero, Int.zero_add]
  have hsum : sum (js.map int) = js.foldl (fun x j => x + int j) (int 0) := List.foldl_map
  have hrange : Fits (js.map Int64.toInt).sum := by
    simpa only [List.take_length] using hfits (js.map Int64.toInt).length
  rw [hsum, foldl_add_int fun k => (hstart _).symm ▸ hfits k, hstart]
  exact equals_ofInt hrange

theorem isInt_foldl_float (is : List Int64) (x : Float) :
    (is.foldl (fun x j => x + int j) (float x)).isInt = false := by
  induction is generalizing x with
  | nil => rfl
  | cons j is ih => exact ih _

/-- A sum that is still an integer at the end has been one all the way, and is exact. -/
theorem equals_foldl_add {is : List Int64} {i : Int64}
    (h : (is.foldl (fun x j => x + int j) (int i)).isInt = true) :
    (is.foldl (fun x j => x + int j) (int i)).Equals (i.toInt + (is.map Int64.toInt).sum) := by
  induction is generalizing i with
  | nil => exact ⟨i, rfl, (Int.add_zero _).symm⟩
  | cons j is ih =>
    rw [List.foldl_cons] at h ⊢
    by_cases hfits : Fits (i.toInt + j.toInt)
    · rw [int_add_int_of_fits hfits] at h ⊢
      rw [List.map_cons, List.sum_cons, ← Int.add_assoc, ← toInt_add_of_fits hfits]
      exact ih h
    · rw [int_add_int, ofIntOr, if_neg hfits, isInt_foldl_float] at h
      cases h

theorem ofInt_add_sum (is : List Int64) (i : Int64) :
    Int64.ofInt (i.toInt + (is.map Int64.toInt).sum) = is.foldl (· + ·) i := by
  induction is generalizing i with
  | nil => simp
  | cons j is ih =>
    rw [List.foldl_cons, ← ih, List.map_cons, List.sum_cons, ← Int.add_assoc, Int64.ofInt_add,
      ofInt_toInt_add, ← Int64.ofInt_toInt (i + j), ← Int64.ofInt_add, Int64.ofInt_toInt]

/-- Where integers wrap around on the way, a sum that ends in range is still exact. -/
theorem toInt_foldl_add {is : List Int64} {i : Int64}
    (h : Fits (i.toInt + (is.map Int64.toInt).sum)) :
    (is.foldl (· + ·) i).toInt = i.toInt + (is.map Int64.toInt).sum := by
  rw [← ofInt_add_sum, toInt_ofInt_of_fits h]

end Number

end DiceNotation

import DiceNotation.Proofs.Number.Range
import DiceNotation.Vocabulary
import Mathlib

/-! Arithmetic on integers. Where the exact result is an integer of 64 bits it is what an operator
gives, and otherwise that is a float. Two operators stray from this: the remainder of the least
integer by `-1` is zero, but its quotient is out of range, and a power of `-1`, `0` or `1` is in
range whatever its exponent, but not all exponents are tried; both are left to floats. -/

namespace DiceNotation

namespace Number

/-- The number stands for the exact value as far as integers can: it is that value where it is an
integer in range, and otherwise a float. -/
structure StandsFor (n : Number) (exact : ℚ) : Prop where
  integer : ∀ i : ℤ, (i : ℚ) = exact → Fits i → n.Equals i
  other : (∀ i : ℤ, (i : ℚ) = exact → ¬ Fits i) → n.isInt = false

theorem standsFor_ofIntOr (i : ℤ) (rounded : Float) : (ofIntOr i rounded).StandsFor i where
  integer j hj hfits := by
    obtain rfl := Int.cast_injective hj
    exact ⟨Int64.ofInt j, if_pos hfits, toInt_ofInt_of_fits hfits⟩
  other h := by
    rw [ofIntOr, if_neg (h i rfl)]
    rfl

/-- A float stands for what is no integer in range. -/
theorem standsFor_float {x : Float} {exact : ℚ} (h : ∀ i : ℤ, (i : ℚ) = exact → ¬ Fits i) :
    (float x).StandsFor exact where
  integer i hi hfits := absurd hfits (h i hi)
  other _ := rfl

theorem not_standsFor_of_fits {n : Number} {exact : ℚ} (hn : n.isInt = false)
    (h : ∃ i : ℤ, (i : ℚ) = exact ∧ Fits i) : ¬ n.StandsFor exact := by
  obtain ⟨i, hi, hfits⟩ := h
  intro hstands
  rw [(hstands.integer i hi hfits).isInt] at hn
  cases hn

end Number

open Number

namespace Operator

/-- The exact result of an operator on integers. The remainder is that of the division truncated
towards zero. -/
def exact : Operator → ℤ → ℤ → ℚ
  | .add, x, y => x + y
  | .sub, x, y => x - y
  | .mul, x, y => x * y
  | .div, x, y => x / y
  | .rem, x, y => x.tmod y
  | .pow, x, y => x ^ y.toNat

/-- Whether the operator takes the integer as its right operand: it divides by all but zero, and
raises to natural numbers. -/
def Takes : Operator → ℤ → Prop
  | .div, y | .rem, y => y ≠ 0
  | .pow, y => 0 ≤ y
  | _, _ => True

/-- The operands whose result is left to floats although it is an integer in range. -/
def Strays : Operator → ℤ → ℤ → Prop
  | .rem, x, y => x = -0x8000000000000000 ∧ y = -1
  | .pow, x, y => 0x100000000 ≤ y ∧ x.natAbs ≤ 1
  | _, _, _ => False

end Operator

namespace Number

section Division

/-- The one quotient of integers that is out of range. -/
theorem not_fits_tdiv_iff {x y : ℤ} (hx : Fits x) (hy : y ≠ 0) :
    ¬ Fits (x.tdiv y) ↔ Operator.rem.Strays x y := by
  have habs : (x.tdiv y).natAbs = x.natAbs / y.natAbs := Int.natAbs_tdiv x y
  unfold Fits at hx ⊢
  unfold Operator.Strays
  by_cases hone : y.natAbs = 1
  · obtain rfl | rfl : y = 1 ∨ y = -1 := by omega
    · rw [Int.tdiv_one]
      omega
    · rw [Int.tdiv_neg, Int.tdiv_one]
      omega
  · have hhalf : x.natAbs / y.natAbs ≤ x.natAbs / 2 := Nat.div_le_div_left (by omega) (by decide)
    omega

theorem fits_tmod {x y : ℤ} (hy : Fits y) (hzero : y ≠ 0) : Fits (x.tmod y) := by
  have habs : (x.tmod y).natAbs = x.natAbs % y.natAbs := Int.natAbs_tmod x y
  have hlt : x.natAbs % y.natAbs < y.natAbs := Nat.mod_lt _ (Int.natAbs_pos.mpr hzero)
  unfold Fits at hy ⊢
  omega

variable {x y : Int64}

theorem ne_zero_of_toInt (hy : y.toInt ≠ 0) : y ≠ 0 := by
  rintro rfl
  exact hy rfl

theorem standsFor_div (hy : y.toInt ≠ 0) :
    ((int x).div (int y)).StandsFor (Operator.div.exact x.toInt y.toInt) := by
  have hcast : (y.toInt : ℚ) ≠ 0 := Int.cast_ne_zero.mpr hy
  rw [div]
  by_cases hdvd : y.toInt ∣ x.toInt
  · have hquotient : Operator.div.exact x.toInt y.toInt = (x.toInt.tdiv y.toInt : ℤ) := by
      obtain ⟨k, hk⟩ := hdvd
      rw [Operator.exact, hk, Int.mul_tdiv_cancel_left k hy, Int.cast_mul,
        mul_div_cancel_left₀ _ hcast]
    rw [if_pos ⟨ne_zero_of_toInt hy, hdvd⟩, hquotient]
    exact standsFor_ofIntOr _ _
  · rw [if_neg fun h => hdvd h.2]
    refine standsFor_float fun i hi => absurd ?_ hdvd
    rw [Operator.exact, eq_div_iff hcast, ← Int.cast_mul] at hi
    exact Dvd.intro_left i (Int.cast_injective hi)

theorem standsFor_rem (hy : y.toInt ≠ 0) (h : ¬ Operator.rem.Strays x.toInt y.toInt) :
    ((int x).rem (int y)).StandsFor (Operator.rem.exact x.toInt y.toInt) := by
  have hquotient : Fits (x.toInt.tdiv y.toInt) :=
    not_not.mp (mt (not_fits_tdiv_iff (fits_toInt x) hy).mp h)
  have hfits : ¬ (y = 0 ∨ ¬ Fits (x.toInt.tdiv y.toInt)) :=
    not_or.mpr ⟨ne_zero_of_toInt hy, not_not.mpr hquotient⟩
  have hrem : (int x).rem (int y) = ofIntOr (x.toInt.tmod y.toInt) 0 := by
    rw [rem, if_neg hfits, ofIntOr, if_pos (fits_tmod (fits_toInt y) hy)]
  rw [hrem]
  exact standsFor_ofIntOr _ _

end Division

section Powers

/-- The powers of `-1`, `0` and `1` repeat after two steps. -/
theorem pow_of_natAbs_le_one {x : ℤ} (hx : x.natAbs ≤ 1) (n : ℕ) :
    x ^ n = if n = 0 then 1 else if n % 2 = 0 then x * x else x := by
  have hcube : x * x * x = x := by
    obtain rfl | rfl | rfl : x = 0 ∨ x = 1 ∨ x = -1 := by omega
    all_goals rfl
  induction n with
  | zero => rw [pow_zero, if_pos rfl]
  | succ n ih =>
    rw [pow_succ, ih, if_neg n.succ_ne_zero]
    rcases n.eq_zero_or_pos with rfl | hn
    · exact one_mul x
    · rw [if_neg hn.ne']
      rcases Nat.mod_two_eq_zero_or_one n with heven | hodd
      · rw [if_pos heven, if_neg (by omega), hcube]
      · rw [if_neg (by omega), if_pos (by omega)]

theorem not_fits_pow {x : ℤ} {n : ℕ} (hx : ¬ x.natAbs ≤ 1) (hn : ¬ n < 64) : ¬ Fits (x ^ n) := by
  have hbig : 2 ^ 64 ≤ (x ^ n).natAbs := by
    rw [Int.natAbs_pow]
    calc 2 ^ 64 ≤ 2 ^ n := Nat.pow_le_pow_right (by decide) (by omega)
      _ ≤ x.natAbs ^ n := Nat.pow_le_pow_left (by omega) n
  unfold Fits
  omega

theorem intPow?_eq_some {x i : ℤ} {n : ℕ} (h : intPow? x n = some i) : i = x ^ n := by
  unfold intPow? at h
  split at h
  · rw [pow_of_natAbs_le_one ‹_›]
    exact (Option.some.inj h).symm
  · split at h
    · exact (Option.some.inj h).symm
    · cases h

/-- The powers that are not computed are out of range. -/
theorem not_fits_of_intPow?_eq_none {x : ℤ} {n : ℕ} (h : intPow? x n = none) : ¬ Fits (x ^ n) := by
  unfold intPow? at h
  split at h
  · cases h
  · split at h
    · cases h
    · exact not_fits_pow ‹_› ‹_›

theorem standsFor_pow {x y : Int64} (hy : 0 ≤ y.toInt) (h : ¬ Operator.pow.Strays x.toInt y.toInt) :
    ((int x).pow (int y)).StandsFor (Operator.pow.exact x.toInt y.toInt) := by
  have hexact : Operator.pow.exact x.toInt y.toInt = (x.toInt ^ y.toInt.toNat : ℤ) := by
    rw [Operator.exact, Int.cast_pow]
  rw [hexact, pow]
  split
  · split
    · rename_i i hi
      rw [← intPow?_eq_some hi]
      exact standsFor_ofIntOr _ _
    · refine standsFor_float fun i hi => ?_
      rw [Int.cast_injective hi]
      exact not_fits_of_intPow?_eq_none ‹_›
  · refine standsFor_float fun i hi => ?_
    rw [Int.cast_injective hi]
    unfold Operator.Strays at h
    exact not_fits_pow (by omega) (by omega)

end Powers

section Operators

variable {op : Operator} {x y : Int64}

theorem standsFor_apply (htakes : op.Takes y.toInt) (h : ¬ op.Strays x.toInt y.toInt) :
    (op.apply (int x) (int y)).StandsFor (op.exact x.toInt y.toInt) := by
  cases op with
  | add =>
    rw [Operator.exact, ← Int.cast_add]
    exact standsFor_ofIntOr _ _
  | sub =>
    rw [Operator.exact, ← Int.cast_sub]
    exact standsFor_ofIntOr _ _
  | mul =>
    rw [Operator.exact, ← Int.cast_mul]
    exact standsFor_ofIntOr _ _
  | div => exact standsFor_div htakes
  | rem => exact standsFor_rem htakes h
  | pow => exact standsFor_pow htakes h

theorem isInt_apply_of_strays (h : op.Strays x.toInt y.toInt) :
    (op.apply (int x) (int y)).isInt = false := by
  cases op with
  | add | sub | mul | div => exact h.elim
  | rem =>
    have hy : y.toInt ≠ 0 := by
      rw [h.2]
      decide
    have hquotient := (not_fits_tdiv_iff (fits_toInt x) hy).mpr h
    rw [Operator.apply, rem, if_pos (Or.inr hquotient)]
    rfl
  | pow =>
    have hlarge : ¬ (0 ≤ y.toInt ∧ y.toInt < 0x100000000) := fun hsmall =>
      Int.not_lt.mpr h.1 hsmall.2
    rw [Operator.apply, pow, if_neg hlarge]
    rfl

theorem exists_exact_of_strays {x y : ℤ} (h : op.Strays x y) :
    ∃ i : ℤ, (i : ℚ) = op.exact x y ∧ Fits i := by
  cases op with
  | add | sub | mul | div => exact h.elim
  | rem =>
    obtain ⟨rfl, rfl⟩ := h
    exact ⟨0, rfl, by decide⟩
  | pow =>
    refine ⟨x ^ y.toNat, Int.cast_pow _ _, ?_⟩
    have hle : (x ^ y.toNat).natAbs ≤ 1 := by
      rw [Int.natAbs_pow]
      exact pow_le_one₀ (Nat.zero_le _) h.2
    unfold Fits
    omega

theorem standsFor_neg (x : Int64) : (-int x : Number).StandsFor (-x.toInt : ℤ) :=
  standsFor_ofIntOr _ _

theorem standsFor_abs (x : Int64) : (int x).abs.StandsFor (|x.toInt| : ℤ) := by
  have habs : (int x).abs = ofIntOr x.toInt.natAbs (Float.ofInt x.toInt.natAbs) := rfl
  rw [habs, Int.abs_eq_natAbs]
  exact standsFor_ofIntOr _ _

/-- An operator on integers gives the exact result as far as integers can hold it, and so do
negation and the absolute value; the only operands on which it does not are those on which it
strays, where it gives a float for an integer in range. -/
theorem arithmetic_exact (x y : Int64) :
    (∀ op : Operator, op.Takes y.toInt → ¬ op.Strays x.toInt y.toInt →
      (op.apply (int x) (int y)).StandsFor (op.exact x.toInt y.toInt)) ∧
    (∀ op : Operator, op.Strays x.toInt y.toInt → (op.apply (int x) (int y)).isInt = false ∧
      ∃ i : ℤ, (i : ℚ) = op.exact x.toInt y.toInt ∧ Fits i) ∧
    (-int x : Number).StandsFor (-x.toInt : ℤ) ∧ (int x).abs.StandsFor (|x.toInt| : ℤ) :=
  ⟨fun _ => standsFor_apply, fun _ h => ⟨isInt_apply_of_strays h, exists_exact_of_strays h⟩,
    standsFor_neg x, standsFor_abs x⟩

/-- Half of the least integer is an integer; its negative and its absolute value are out of range.
-/
theorem arithmetic_exact_least :
    (Operator.div.apply (int Int64.minValue) (int 2)).Equals (-0x4000000000000000) ∧
    (-int Int64.minValue : Number).isInt = false ∧ (int Int64.minValue).abs.isInt = false := by
  have hleast : Int64.minValue.toInt = -0x8000000000000000 := by decide
  have htwo : (2 : Int64).toInt = 2 := by decide
  have htakes : Operator.div.Takes (2 : Int64).toInt := Int.ne_of_gt (by decide)
  obtain ⟨hop, -, hneg, habs⟩ := arithmetic_exact Int64.minValue 2
  refine ⟨(hop .div htakes id).integer _ ?_ (by decide), hneg.other ?_, habs.other ?_⟩
  · rw [Operator.exact, hleast, htwo]
    norm_num
  · intro i hi
    rw [Int.cast_injective hi]
    decide
  · intro i hi
    rw [Int.cast_injective hi]
    decide

/-- The remainder is zero and the power is one, and both are left to floats. -/
theorem arithmetic_strays :
    ¬ (Operator.rem.apply (int Int64.minValue) (int (-1))).StandsFor
        (Operator.rem.exact Int64.minValue.toInt (-1 : Int64).toInt) ∧
    ¬ (Operator.pow.apply (int 1) (int 0x100000000)).StandsFor
        (Operator.pow.exact (1 : Int64).toInt (0x100000000 : Int64).toInt) := by
  have hrem : Operator.rem.Strays Int64.minValue.toInt (-1 : Int64).toInt :=
    ⟨by decide, by decide⟩
  have hpow : Operator.pow.Strays (1 : Int64).toInt (0x100000000 : Int64).toInt :=
    ⟨by decide, by decide⟩
  exact ⟨not_standsFor_of_fits (isInt_apply_of_strays hrem) (exists_exact_of_strays hrem),
    not_standsFor_of_fits (isInt_apply_of_strays hpow) (exists_exact_of_strays hpow)⟩

end Operators

end Number

end DiceNotation

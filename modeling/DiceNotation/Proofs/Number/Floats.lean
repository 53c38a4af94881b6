import DiceNotation.Proofs.Number.Range
import Mathlib

/-! Floats near zero. A float that is not more than nothing is less than one, and what is rounded down
and is not less than one is one at least, unless it is not a number: such a one passes every
comparison of this kind, and comes to zero as an integer. -/

namespace DiceNotation

open Float.Model (UnpackedFloat)
open Float.Model.UnpackedFloat (Sign)

namespace Binary

/-- What a float stands for by its bits: a finite number, an infinite one or none. -/
def datum (x : Float) : UnpackedFloat :=
  UnpackedFloat.unpack .binary64 x.toBits.toBitVec

section Datum

theorem lt_iff (x y : Float) : x < y ↔ (datum x).lt (datum y) = true :=
  decide_eq_true_iff

theorem isNaN_eq (x : Float) : x.isNaN = (datum x).isNaN :=
  rfl

theorem datum_zero : datum 0 = .zero .positive := by
  have hbits : (0 : Float).toBits = 0 := by decide +kernel
  rw [datum, hbits]
  rfl

theorem datum_one : ∃ mantissa exponent h,
    datum (Float.ofInt 1) = .finite .positive mantissa exponent h := by
  have hbits : (Float.ofInt 1).toBits = 0x3FF0000000000000 := by decide +kernel
  rw [datum, hbits]
  exact ⟨_, _, _, rfl⟩

theorem toNat_unpackSign (b : BitVec 64) :
    (@UnpackedFloat.unpackSign .binary64 b).toNat = b.toNat / 0x8000000000000000 % 2 := by
  simp [UnpackedFloat.unpackSign, Nat.shiftRight_eq_div_pow]

theorem toNat_unpackExponent (b : BitVec 64) :
    (@UnpackedFloat.unpackExponent .binary64 b).toNat =
      b.toNat / 0x10000000000000 % 2048 := by
  simp [UnpackedFloat.unpackExponent, Nat.shiftRight_eq_div_pow]

end Datum

/-- A datum that is less than all that is more than nothing. -/
def IsLow : UnpackedFloat → Prop
  | .finite .negative .. | .infinity .negative | .zero _ => True
  | _ => False

theorem lt_one_of_isLow {x : Float} (h : IsLow (datum x)) : x < Float.ofInt 1 := by
  obtain ⟨mantissa, exponent, hpos, hone⟩ := datum_one
  rw [lt_iff, hone]
  generalize datum x = u at h
  match u, h with
  | .finite .negative .., _ | .infinity .negative, _ | .zero _, _ => rfl

theorem isLow_of_lt_zero {x : Float} (h : x < 0) : IsLow (datum x) := by
  rw [lt_iff, datum_zero] at h
  generalize datum x = u at h
  match u, h with
  | .finite .negative .., _ | .infinity .negative, _ => trivial

/-- The sign of a finite float is that of its datum. -/
theorem isLow_of_negative {x : Float} {b : Binary} (h : ofFloat? x = some b)
    (hb : b.negative = true) : IsLow (datum x) := by
  have hexponent := toNat_unpackExponent x.toBits.toBitVec
  have hsign := toNat_unpackSign x.toBits.toBitVec
  simp only [ofFloat?] at h
  have hfield : x.toBits.toNat / 0x10000000000000 % 2048 ≠ 2047 := by
    intro hfield
    simp [hfield] at h
  rw [if_neg hfield] at h
  have hnegative : x.toBits.toNat / 0x8000000000000000 = 1 := by
    split at h <;>
    · cases h
      exact beq_iff_eq.mp hb
  have hinfinite : @UnpackedFloat.unpackExponent .binary64 x.toBits.toBitVec ≠ -1#_ := by
    intro hall
    rw [hall] at hexponent
    exact hfield hexponent.symm
  have hminus : Sign.ofBitVec (@UnpackedFloat.unpackSign .binary64 x.toBits.toBitVec) =
      .negative := by
    refine if_neg fun hzero => ?_
    rw [hzero] at hsign
    have hbits : x.toBits.toBitVec.toNat / 0x8000000000000000 = 1 := hnegative
    rw [hbits] at hsign
    cases hsign
  simp only [datum, UnpackedFloat.unpack, if_neg hinfinite, hminus]
  split
  · split <;> trivial
  · trivial

theorem ofFloat?_of_isNaN {x : Float} (h : x.isNaN = true) : ofFloat? x = none := by
  have hexponent := toNat_unpackExponent x.toBits.toBitVec
  have hall : @UnpackedFloat.unpackExponent .binary64 x.toBits.toBitVec = -1#_ := by
    refine Decidable.byContradiction fun hfinite => ?_
    simp only [isNaN_eq, datum, UnpackedFloat.unpack, if_neg hfinite] at h
    split at h
    · split at h <;> cases h
    · cases h
  rw [hall] at hexponent
  exact if_pos hexponent.symm

theorem numerator_of_positive {b : Binary} (hb : b.negative = false) : 0 ≤ b.numerator := by
  have hsigned : b.signed = b.mantissa := by simp [signed, hb]
  rw [numerator, hsigned]
  exact Int.mul_nonneg (Int.natCast_nonneg _) (Int.natCast_nonneg _)

theorem trunc_eq_floor {b : Binary} (hb : b.negative = false) : b.trunc = b.floor :=
  Int.tdiv_eq_ediv_of_nonneg (numerator_of_positive hb)

theorem floor_of_positive {b : Binary} (hb : b.negative = false) : 0 ≤ b.floor :=
  Int.ediv_nonneg (numerator_of_positive hb) (Int.natCast_nonneg _)

end Binary

namespace Number

/-- Whether a number is a float that stands for none. -/
def isNaN : Number → Bool
  | .int _ => false
  | .float x => x.isNaN

theorem one_le_of_not_less_one {i : Int64} (h : (int i).less (.int 1) = false) : 1 ≤ i := by
  rw [less_int_int, decide_eq_false_iff_not] at h
  rw [Int64.le_iff_toInt_le]
  exact Int.not_lt.mp h

theorem not_lt_one_of_not_less {x : Float} (h : (float x).less (.int 1) = false) :
    ¬ x < Float.ofInt 1 := by
  intro hlt
  have hfloats : (float x).compare? (.int 1) = compareFloats x (Float.ofInt 1) := rfl
  rw [less, hfloats, compareFloats, if_pos hlt] at h
  cases h

theorem saturate_of_le {i : Int} (h : 0x8000000000000000 ≤ i) : saturate i = Int64.maxValue := by
  have hmin : min i 0x7fffffffffffffff = 0x7fffffffffffffff := by omega
  rw [saturate, hmin]
  decide

/-- What is too large for an integer once it is rounded down is as large as an integer can be. -/
theorem toInt64_of_large {x : Float} {b : Binary} (hx : Binary.ofFloat? x = some b)
    (hb : b.negative = false) (hlarge : ¬ b.floor.natAbs < 0x8000000000000000) :
    (float x).toInt64 = Int64.maxValue := by
  have hpositive := Binary.floor_of_positive hb
  simp only [toInt64, hx, Binary.trunc_eq_floor hb]
  exact saturate_of_le (by omega)

/-- What is not less than one after it is rounded down is one at least, or it is not a number. -/
theorem one_le_floor {n : Number} (h : n.floor.less (.int 1) = false) :
    n.isNaN = true ∨ 1 ≤ n.floor.toInt64 := by
  have hmax : 1 ≤ Int64.maxValue := by decide
  cases n with
  | int i => exact Or.inr (one_le_of_not_less_one h)
  | float x =>
    rw [floor, rounded] at h ⊢
    cases hx : Binary.ofFloat? x with
    | none =>
      simp only [hx] at h ⊢
      simp only [toInt64, hx, isNaN]
      split
      · exact Or.inl ‹_›
      · split
        · exact absurd (Binary.lt_one_of_isLow (Binary.isLow_of_lt_zero ‹_›)) (not_lt_one_of_not_less h)
        · exact Or.inr hmax
    | some b =>
      simp only [hx] at h ⊢
      by_cases hfits : b.floor.natAbs < 0x8000000000000000
      · rw [if_pos hfits] at h ⊢
        exact Or.inr (one_le_of_not_less_one h)
      · rw [if_neg hfits] at h ⊢
        cases hb : b.negative with
        | true =>
          exact absurd (Binary.lt_one_of_isLow (Binary.isLow_of_negative hx hb))
            (not_lt_one_of_not_less h)
        | false => exact Or.inr (toInt64_of_large hx hb hfits ▸ hmax)

theorem toInt64_floor_of_isNaN {n : Number} (h : n.isNaN = true) : n.floor.toInt64 = 0 := by
  cases n with
  | int i => cases h
  | float x =>
    have hx := Binary.ofFloat?_of_isNaN h
    simp only [floor, rounded, hx, toInt64]
    exact if_pos h

end Number

end DiceNotation

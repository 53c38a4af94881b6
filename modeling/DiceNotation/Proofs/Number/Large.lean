import DiceNotation.Proofs.Number.Floats

/-! Floats of large integers. An integer is rounded to the first bits of its digits, so one that is out
of range becomes a float that is no less than that of any integer in range; a natural number is
therefore compared with an integer as it should be, even where it does not fit. -/

namespace DiceNotation

open Float.Model (UnpackedFloat Format)
open Float.Model.UnpackedFloat (Sign Accuracy ExtendedMantissa roundWithAccuracy)

namespace Binary

section Rounding

/-- A positive datum with all bits of its mantissa in use. The first of them stands where it should,
or one place ahead after rounding up. -/
def Leads (top : Int) (u : UnpackedFloat) : Prop :=
  ∃ mantissa exponent h, u = .finite .positive mantissa exponent h ∧
    2 ^ 52 ≤ mantissa ∧ mantissa < 2 ^ 53 ∧
    (exponent = top - 52 ∨ exponent = top - 51 ∧ mantissa = 2 ^ 52)

theorem mantissa_shiftRight (m : ExtendedMantissa) (n : Nat) :
    (m >>> n).mantissa = m.mantissa / 2 ^ n := by
  change (n.repeat ExtendedMantissa.shiftRightOne m).mantissa = _
  induction n with
  | zero => rw [Nat.repeat, Nat.pow_zero, Nat.div_one]
  | succ n ih =>
    rw [Nat.repeat, Nat.pow_succ, ← Nat.div_div_eq_div_mul, ← ih]
    rfl

theorem roundedMantissa_eq (m : ExtendedMantissa) :
    m.roundedMantissa = m.mantissa ∨ m.roundedMantissa = m.mantissa + 1 := by
  obtain ⟨mantissa, roundBit, stickyBit⟩ := m
  cases roundBit <;> cases stickyBit <;>
    simp [ExtendedMantissa.roundedMantissa, ExtendedMantissa.accuracy, Accuracy.roundToNearestEven]
  omega

theorem targetExponent_eq {e : Int} (h : -1074 ≤ e - 53) :
    Format.binary64.targetExponent e = e - 53 := by
  have hmin : Format.binary64.minExponent = -1074 := by decide
  have hbits : (Format.binary64.mantissaBits : Int) = 53 := rfl
  rw [Format.targetExponent, hmin, hbits]
  omega

theorem shiftToTargetExponent_eq {m k : Nat} {e : Int} (hk : m.log2 = k + 52) (he : -1074 ≤ e + k) :
    UnpackedFloat.shiftToTargetExponent .binary64 m e .exact =
      ((⟨m, false, false⟩ : ExtendedMantissa) >>> k, e + k) := by
  have htotal : Float.Model.totalExponent m e = e + k + 53 := by
    rw [Float.Model.totalExponent, hk]
    omega
  have htarget : Format.binary64.targetExponent (e + k + 53) = e + k := by
    rw [targetExponent_eq (by omega)]
    omega
  have hshift : (e + k - e).toNat = k := by omega
  simp only [UnpackedFloat.shiftToTargetExponent, htotal, htarget, UnpackedFloat.shiftToExponent,
    hshift]
  rfl

/-- A mantissa of enough bits is cut to its first 53, and to one bit fewer of the next exponent if
rounding up carries through all of them. -/
theorem leads_roundWithAccuracy {m : Nat} {e : Int} (hm : 2 ^ 52 ≤ m) (he : -1074 ≤ m.log2 + e - 52) :
    Leads (m.log2 + e) (roundWithAccuracy .binary64 .positive m e .exact) := by
  have hlog : 52 ≤ m.log2 := (Nat.le_log2 (by omega)).mpr hm
  obtain ⟨k, hk⟩ : ∃ k, m.log2 = k + 52 := ⟨m.log2 - 52, by omega⟩
  have hlow : 2 ^ 52 ≤ m / 2 ^ k := by
    rw [Nat.le_div_iff_mul_le (Nat.two_pow_pos k), ← Nat.pow_add, Nat.add_comm, ← hk]
    exact Nat.log2_self_le (by omega)
  have hhigh : m / 2 ^ k < 2 ^ 53 := by
    rw [Nat.div_lt_iff_lt_mul (Nat.two_pow_pos k), ← Nat.pow_add, Nat.add_comm]
    have hself := @Nat.lt_log2_self m
    rw [hk] at hself
    exact hself
  have hfirst := shiftToTargetExponent_eq hk (e := e) (by omega)
  obtain ⟨r, hr, hrange⟩ : ∃ r, ((⟨m, false, false⟩ : ExtendedMantissa) >>> k).roundedMantissa = r ∧
      (r = m / 2 ^ k ∨ r = m / 2 ^ k + 1) := by
    refine ⟨_, rfl, ?_⟩
    rw [← mantissa_shiftRight ⟨m, false, false⟩ k]
    exact roundedMantissa_eq _
  rw [roundWithAccuracy, hfirst]
  dsimp only
  rw [hr]
  by_cases hfull : r = 2 ^ 53
  · have hlogr : r.log2 = 1 + 52 := by
      rw [hfull]
      decide
    rw [shiftToTargetExponent_eq hlogr (by omega)]
    have hhalf : ((⟨r, false, false⟩ : ExtendedMantissa) >>> 1).mantissa = 2 ^ 52 := by
      rw [mantissa_shiftRight, hfull]
      decide
    rw [dif_neg (by rw [hhalf]; decide)]
    exact ⟨_, _, _, rfl, hhalf.ge, hhalf.trans_lt (by decide), .inr ⟨by omega, hhalf⟩⟩
  · have hlogr : r.log2 = 0 + 52 := by
      rw [Nat.log2_eq_iff (by omega)]
      omega
    rw [shiftToTargetExponent_eq hlogr (by omega)]
    have hsame : ((⟨r, false, false⟩ : ExtendedMantissa) >>> 0).mantissa = r := by
      rw [mantissa_shiftRight, Nat.pow_zero, Nat.div_one]
    rw [dif_neg (by rw [hsame]; omega)]
    have hlowr : 2 ^ 52 ≤ ((⟨r, false, false⟩ : ExtendedMantissa) >>> 0).mantissa := by omega
    have hhighr : ((⟨r, false, false⟩ : ExtendedMantissa) >>> 0).mantissa < 2 ^ 53 := by omega
    exact ⟨_, _, _, rfl, hlowr, hhighr, .inl (by omega)⟩

end Rounding

section Packing

theorem unpackSign_packComponents (sign : Sign) (exponent : BitVec 11) (mantissa : BitVec 52) :
    UnpackedFloat.unpackSign (UnpackedFloat.packComponents .binary64 sign exponent mantissa) =
      sign.toBitVec := by
  simp only [UnpackedFloat.unpackSign, UnpackedFloat.packComponents, BitVec.extractLsb]
  rw [BitVec.extractLsb'_append_eq_of_le (by omega), BitVec.extractLsb'_append_eq_of_le (by omega)]
  cases sign <;> rfl

theorem toNat_leading_append {m : Nat} (hm : 2 ^ 52 ≤ m) (hm' : m < 2 ^ 53) :
    (1#1 ++ BitVec.ofNat 52 m).toNat = m := by
  rw [BitVec.toNat_append, ← Nat.shiftLeft_add_eq_or_of_lt (BitVec.ofNat 52 m).isLt,
    BitVec.toNat_ofNat, BitVec.toNat_ofNat, Nat.shiftLeft_eq]
  omega

theorem unpack_packedInfinity (sign : Sign) :
    UnpackedFloat.unpack .binary64 (UnpackedFloat.packedInfinity .binary64 sign) =
      .infinity sign := by
  cases sign <;> rfl

/-- What is packed from a mantissa with its first bit in use is unpacked again, but for exponents out
of range. -/
theorem unpack_pack (sign : Sign) {m : Nat} {e : Int} (h : 0 < m) (hm : 2 ^ 52 ≤ m)
    (hm' : m < 2 ^ 53) (he : -1074 ≤ e) :
    UnpackedFloat.unpack .binary64 (UnpackedFloat.pack .binary64 (.finite sign m e h)) =
      if e ≤ 971 then .finite sign m e h else .infinity sign := by
  have hsign : Sign.ofBitVec sign.toBitVec = sign := by cases sign <;> rfl
  have hlog : m.log2 = 52 := by
    rw [Nat.log2_eq_iff (by omega)]
    omega
  have hbias : (Format.binary64.exponentBias : Int) = 1023 := by decide
  have hbits : 52 + 1 = Format.binary64.mantissaBits := rfl
  obtain ⟨n, hn⟩ : ∃ n : Nat, e + 1075 = n := ⟨(e + 1075).toNat, by omega⟩
  have hsum : (e + Format.binary64.exponentBias + Format.binary64.mantissaBitsWithoutImplicit).toNat =
      n := by
    rw [hbias]
    change (e + 1023 + 52).toNat = n
    omega
  simp only [UnpackedFloat.pack, hlog, hsum, if_pos hbits]
  by_cases hfinite : e ≤ 971
  · have hexponent : (BitVec.ofNat 11 n).toNat = n := by
      rw [BitVec.toNat_ofNat]
      omega
    have hinfinite : BitVec.ofNat 11 n ≠ -1#11 := by
      intro heq
      rw [heq] at hexponent
      have hmax : (-1#11).toNat = 2047 := by decide
      omega
    have hzero : BitVec.ofNat 11 n ≠ 0#11 := by
      intro heq
      rw [heq, BitVec.toNat_ofNat] at hexponent
      omega
    rw [if_neg (by omega), if_pos hfinite, UnpackedFloat.unpack]
    simp only [unpackSign_packComponents, UnpackedFloat.unpackExponent_packComponents,
      UnpackedFloat.unpackMantissa_packComponents, if_neg hinfinite, if_neg hzero,
      toNat_leading_append hm hm', hexponent, hsign]
    congr 1
    rw [hbias]
    change (n : Int) - (1023 + 52) = e
    omega
  · rw [if_pos (by omega), if_neg hfinite]
    exact unpack_packedInfinity sign

theorem datum_ofModel_pack (u : UnpackedFloat) : datum (.ofModel (.pack u)) =
    UnpackedFloat.unpack .binary64 (UnpackedFloat.pack .binary64 u) :=
  rfl

theorem datum_of_leads {top : Int} {u : UnpackedFloat} (h : Leads top u) (htop : -1022 ≤ top) :
    ∃ m e hm, u = .finite .positive m e hm ∧ 2 ^ 52 ≤ m ∧ m < 2 ^ 53 ∧
      (e = top - 52 ∨ e = top - 51 ∧ m = 2 ^ 52) ∧
      datum (.ofModel (.pack u)) = if e ≤ 971 then u else .infinity .positive := by
  obtain ⟨m, e, hm, rfl, hlow, hhigh, he⟩ := h
  refine ⟨m, e, hm, rfl, hlow, hhigh, he, ?_⟩
  rw [datum_ofModel_pack, unpack_pack .positive hm hlow hhigh (by omega)]

end Packing

section Integers

theorem log2_mul_pow {n : Nat} (h : n ≠ 0) (k : Nat) : (n * 2 ^ k).log2 = n.log2 + k := by
  induction k with
  | zero => rw [Nat.pow_zero, Nat.mul_one, Nat.add_zero]
  | succ k ih =>
    have hdouble : n * 2 ^ (k + 1) = 2 * (n * 2 ^ k) := by ring
    rw [hdouble, Nat.log2_two_mul (Nat.mul_ne_zero h (Nat.two_pow_pos k).ne'), ih, Nat.add_assoc]

/-- From `2 ^ 53` on, an integer is rounded once. -/
theorem exists_leads_of_large {n : Nat} (h : 2 ^ 53 ≤ n) :
    ∃ u, Leads n.log2 u ∧ Float.ofNat n = .ofModel (.pack u) := by
  have hslow : Float.ofNat n = .ofModel (.ofScientific n 0) := by
    change Float.ofScientific n false 0 = _
    rw [Float.ofScientific, dif_neg (by omega)]
    rfl
  have hround : UnpackedFloat.ofScientific .binary64 n 0 =
      roundWithAccuracy .binary64 .positive (n * 2 ^ 53) (-53) .exact := by
    have hsize : (2 ^ Format.binary64.exponentBits : Int) = 2048 := by decide
    rw [UnpackedFloat.ofScientific, dif_neg (by omega), if_neg (by decide), if_neg (by omega),
      if_pos (by decide), ← Nat.shiftLeft_eq]
    change roundWithAccuracy .binary64 .positive (n <<< 53 * 1) (-53) .exact = _
    rw [Nat.mul_one]
  have hlog := log2_mul_pow (n := n) (by omega) 53
  have hleads : Leads ((n * 2 ^ 53).log2 + -53)
      (roundWithAccuracy .binary64 .positive (n * 2 ^ 53) (-53) .exact) :=
    leads_roundWithAccuracy (by omega) (by omega)
  rw [hlog] at hleads
  refine ⟨_, ?_, by rw [hslow, Float.Model.ofScientific, hround]⟩
  convert hleads using 1
  omega

theorem datum_unit : datum (Float.ofBits 0x3FF0000000000000) =
    .finite .positive (2 ^ 52) (-52) (Nat.two_pow_pos 52) := by
  have hbits : (Float.ofBits 0x3FF0000000000000).toBits = 0x3FF0000000000000 := by decide +kernel
  rw [datum, hbits]
  rfl

/-- A machine word is rounded from its own digits. -/
theorem exists_leads_toFloat {n : Nat} (hn : 0 < n) (h : n < 2 ^ 53) :
    ∃ u, Leads n.log2 u ∧ n.toUInt64.toFloat = .ofModel (.pack u) := by
  have hword : n.toUInt64.toNat = n := by
    exact UInt64.toNat_ofNat_of_lt' (h.trans (by decide))
  have hlog : n.log2 < 53 := (Nat.log2_lt (by omega)).mpr h
  obtain ⟨k, hk⟩ : ∃ k : Nat, n.log2 + k = 52 := ⟨52 - n.log2, by omega⟩
  have htotal : Format.binary64.targetExponent (Float.Model.totalExponent n 0) = -k := by
    rw [Float.Model.totalExponent, targetExponent_eq (by omega)]
    omega
  have hshift : (0 - -(k : Int)).toNat = k := by omega
  have hround : UnpackedFloat.ofUInt64 .binary64 n.toUInt64 =
      roundWithAccuracy .binary64 .positive (n * 2 ^ k) (0 - k) .exact := by
    rw [UnpackedFloat.ofUInt64, hword, UnpackedFloat.ofNat, UnpackedFloat.ofInt,
      UnpackedFloat.normalize, Int.compare_eq_gt.mpr (by omega)]
    simp only [UnpackedFloat.round, Int.toNat_natCast, htotal, UnpackedFloat.decreaseExponent, hshift,
      Nat.shiftLeft_eq]
  have hfull := log2_mul_pow (n := n) (by omega) k
  have hleads : Leads ((n * 2 ^ k).log2 + (0 - k))
      (roundWithAccuracy .binary64 .positive (n * 2 ^ k) (0 - k) .exact) := by
    refine leads_roundWithAccuracy ?_ (by omega)
    rw [← hk, Nat.pow_add]
    exact Nat.mul_le_mul_right _ (Nat.log2_self_le (by omega))
  refine ⟨_, ?_, congrArg (fun u => Float.ofModel (.pack u)) hround⟩
  convert hleads using 1
  omega

/-- Below `2 ^ 53` it is multiplied by a one, and rounded once more. -/
theorem exists_leads_of_small {n : Nat} (hn : 0 < n) (h : n < 2 ^ 53) :
    ∃ top u, Leads top u ∧ Float.ofNat n = .ofModel (.pack u) ∧ 0 ≤ top ∧ top ≤ 53 := by
  have hfast : Float.ofNat n = n.toUInt64.toFloat * Float.ofBits 0x3FF0000000000000 := by
    change Float.ofScientific n false 0 = _
    rw [Float.ofScientific, dif_pos ⟨h, by decide⟩]
    rfl
  obtain ⟨u, hu, hfloat⟩ := exists_leads_toFloat hn h
  have hlog : n.log2 < 53 := (Nat.log2_lt (by omega)).mpr h
  obtain ⟨m, e, hm, rfl, hlow, hhigh, he, hdatum⟩ := datum_of_leads hu (by omega)
  have hlogm : m.log2 = 52 := by
    rw [Nat.log2_eq_iff (by omega)]
    omega
  rw [if_pos (by omega)] at hdatum
  have hproduct : n.toUInt64.toFloat * Float.ofBits 0x3FF0000000000000 =
      .ofModel (.pack (roundWithAccuracy .binary64 .positive (m * 2 ^ 52) (e + -52) .exact)) := by
    rw [hfloat]
    change Float.ofModel (.pack (UnpackedFloat.mul .binary64 (datum _) (datum _))) = _
    rw [hdatum, datum_unit]
    rfl
  have hlog := log2_mul_pow (n := m) (by omega) 52
  have hleads : Leads ((m * 2 ^ 52).log2 + (e + -52))
      (roundWithAccuracy .binary64 .positive (m * 2 ^ 52) (e + -52) .exact) :=
    leads_roundWithAccuracy (by omega) (by omega)
  exact ⟨_, _, hleads, hfast.trans hproduct, by omega, by omega⟩

end Integers

section Compared

/-- A datum that is no more than `2 ^ 63`, as far as its form tells. -/
def IsShort : UnpackedFloat → Prop
  | .infinity .negative | .zero _ | .finite .negative .. => True
  | .finite .positive mantissa exponent _ => exponent < 11 ∨ exponent = 11 ∧ mantissa = 2 ^ 52
  | _ => False

/-- A datum that is `2 ^ 63` at least. -/
def IsLong : UnpackedFloat → Prop
  | .infinity .positive => True
  | .finite .positive mantissa exponent _ => 11 ≤ exponent ∧ 2 ^ 52 ≤ mantissa
  | _ => False

theorem compare_of_isShort {u v : UnpackedFloat} (hu : IsShort u) (hv : IsLong v) :
    u.compare v = some .lt ∨ u.compare v = some .eq := by
  match u, hu, v, hv with
  | .finite .positive m e _, hu, .finite .positive m' e' _, hv =>
    obtain ⟨he', hm'⟩ := hv
    have hu : e < 11 ∨ e = 11 ∧ m = 2 ^ 52 := hu
    rw [UnpackedFloat.compare]
    rcases lt_or_eq_of_le (show e ≤ e' by omega) with he | rfl
    · left
      rw [Int.compare_eq_lt.mpr he]
      rfl
    · obtain rfl : m = 2 ^ 52 := by omega
      rw [Int.compare_eq_eq.mpr rfl]
      rcases lt_or_eq_of_le hm' with hm | rfl
      · left
        rw [Nat.compare_eq_lt.mpr hm]
        rfl
      · right
        rw [Nat.compare_eq_eq.mpr rfl]
        rfl
  | .finite .positive .., _, .infinity .positive, _ | .infinity .negative, _, .infinity .positive, _
  | .infinity .negative, _, .finite .positive .., _ | .zero _, _, .infinity .positive, _
  | .zero _, _, .finite .positive .., _ | .finite .negative .., _, .infinity .positive, _
  | .finite .negative .., _, .finite .positive .., _ => exact .inl rfl

theorem isLong_ofNat {n : Nat} (h : 2 ^ 63 ≤ n) : IsLong (datum (Float.ofNat n)) := by
  obtain ⟨u, hu, hfloat⟩ := exists_leads_of_large (n := n) (by omega)
  have hlog : 63 ≤ n.log2 := (Nat.le_log2 (by omega)).mpr h
  obtain ⟨m, e, hm, rfl, hlow, hhigh, he, hdatum⟩ := datum_of_leads hu (by omega)
  rw [hfloat, hdatum]
  split
  · exact ⟨by omega, hlow⟩
  · trivial

theorem isShort_ofNat {n : Nat} (h : n < 2 ^ 63) : IsShort (datum (Float.ofNat n)) := by
  rcases Nat.eq_zero_or_pos n with rfl | hn
  · have hzero : datum (Float.ofNat 0) = .zero .positive := datum_zero
    rw [hzero]
    trivial
  · obtain ⟨top, u, hu, hfloat, hbottom, htop⟩ : ∃ top u, Leads top u ∧
        Float.ofNat n = .ofModel (.pack u) ∧ 0 ≤ top ∧ top ≤ 62 := by
      rcases Nat.lt_or_ge n (2 ^ 53) with hsmall | hlarge
      · obtain ⟨top, u, hu, hfloat, hbottom, htop⟩ := exists_leads_of_small hn hsmall
        exact ⟨top, u, hu, hfloat, hbottom, by omega⟩
      · obtain ⟨u, hu, hfloat⟩ := exists_leads_of_large hlarge
        have hlog : n.log2 < 63 := (Nat.log2_lt (by omega)).mpr h
        exact ⟨_, u, hu, hfloat, by omega, by omega⟩
    obtain ⟨m, e, hm, rfl, hlow, hhigh, he, hdatum⟩ := datum_of_leads hu (by omega)
    rw [hfloat, hdatum, if_pos (by omega)]
    show e < 11 ∨ e = 11 ∧ m = 2 ^ 52
    omega

theorem isShort_neg_ofNat {n : Nat} (hn : 0 < n) : IsShort (datum (Float.neg (Float.ofNat n))) := by
  obtain ⟨top, u, hu, hfloat, htop⟩ : ∃ top u, Leads top u ∧ Float.ofNat n = .ofModel (.pack u) ∧
      0 ≤ top := by
    rcases Nat.lt_or_ge n (2 ^ 53) with hsmall | hlarge
    · obtain ⟨top, u, hu, hfloat, hbottom, -⟩ := exists_leads_of_small hn hsmall
      exact ⟨top, u, hu, hfloat, hbottom⟩
    · obtain ⟨u, hu, hfloat⟩ := exists_leads_of_large hlarge
      exact ⟨_, u, hu, hfloat, by omega⟩
  obtain ⟨m, e, hm, rfl, hlow, hhigh, he, hdatum⟩ := datum_of_leads hu (by omega)
  have hneg (x : Float) : datum x.neg = UnpackedFloat.unpack .binary64
      (UnpackedFloat.pack .binary64 (datum x).neg) := rfl
  rw [hneg, hfloat, hdatum]
  split
  · change IsShort (UnpackedFloat.unpack _ (UnpackedFloat.pack _ (.finite .negative m e hm)))
    rw [unpack_pack .negative hm hlow hhigh (by omega)]
    split <;> trivial
  · change IsShort (UnpackedFloat.unpack _ (UnpackedFloat.packedInfinity _ .negative))
    rw [unpack_packedInfinity]
    trivial

end Compared

end Binary

namespace Number

/-- An integer is compared with a natural number exactly, also if the latter is out of range. -/
theorem atMost_int_ofNat (i : Int64) (n : Nat) :
    (int i).atMost (ofNat n) = decide (i.toInt ≤ n) := by
  by_cases h : Fits n
  · rw [ofNat, ofInt_of_fits h, atMost_int_int, toInt_ofInt_of_fits h]
  · have hlarge : 2 ^ 63 ≤ n := by
      unfold Fits at h
      omega
    have hi := fits_toInt i
    have hshort : Binary.IsShort (Binary.datum (Float.ofInt i.toInt)) := by
      unfold Fits at hi
      generalize i.toInt = j at hi
      cases j with
      | ofNat m => exact Binary.isShort_ofNat (Int.ofNat_lt.mp hi.2)
      | negSucc m => exact Binary.isShort_neg_ofNat (Nat.succ_pos m)
    have hlong : Binary.IsLong (Binary.datum (Float.ofInt n)) := Binary.isLong_ofNat hlarge
    have hle : i.toInt ≤ n := by
      have hbound := hi.2
      omega
    have hfloat : ofNat n = .float (Float.ofInt n) := by rw [ofNat, ofInt, ofIntOr, if_neg h]
    have hcompare : (int i).compare? (.float (Float.ofInt n)) =
        compareFloats (Float.ofInt i.toInt) (Float.ofInt n) := rfl
    rw [hfloat, decide_eq_true hle, atMost, less, same, hcompare, compareFloats]
    rcases Binary.compare_of_isShort hshort hlong with hlt | heq
    · rw [if_pos ((Binary.lt_iff _ _).mpr (beq_iff_eq.mpr hlt))]
      rfl
    · have hbeq : (Float.ofInt i.toInt == Float.ofInt n) = true := by
        change UnpackedFloat.beq (Binary.datum _) (Binary.datum _) = true
        exact beq_iff_eq.mpr heq
      have hless : ¬ Float.ofInt i.toInt < Float.ofInt n := by
        rw [Binary.lt_iff, UnpackedFloat.lt, heq]
        decide
      rw [if_neg hless, if_pos hbeq]
      rfl

end Number
end DiceNotation

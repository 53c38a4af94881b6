import DiceNotation.Number.Basic

/-! Numbers that stay integers. An integer result is a float as soon as it leaves the range of 64
bits, so a number that is still an integer has never left it. -/

namespace DiceNotation

namespace Number

def isInt : Number → Bool
  | .int _ => true
  | .float _ => false

theorem exists_of_isInt {x : Number} (h : x.isInt = true) : ∃ i, x = .int i := by
  cases x with
  | int i => exact ⟨i, rfl⟩
  | float _ => simp [isInt] at h

theorem eq_int_of_toInt64 {x : Number} {i : Int64} (h : (x.isInt && x.toInt64 == i) = true) :
    x = .int i := by
  cases x with
  | int j =>
    obtain rfl : j = i := by simpa [isInt, toInt64] using h
    rfl
  | float x => cases h

theorem less_int_int (i j : Int64) : (int i).less (int j) = decide (i.toInt < j.toInt) := by
  simp only [less, compare?, compare, compareOfLessAndEq]
  by_cases h : i.toInt < j.toInt
  · simp [h]
  · by_cases heq : i.toInt = j.toInt <;> simp [h, heq]

theorem same_int_int (i j : Int64) : (int i).same (int j) = decide (i.toInt = j.toInt) := by
  simp only [same, compare?, compare, compareOfLessAndEq]
  by_cases h : i.toInt < j.toInt
  · simp [h, Int.ne_of_lt h]
  · by_cases heq : i.toInt = j.toInt <;> simp [h, heq]

theorem atMost_int_int (i j : Int64) : (int i).atMost (int j) = decide (i.toInt ≤ j.toInt) := by
  rw [atMost, less_int_int, same_int_int, ← Bool.decide_or, decide_eq_decide]
  exact Int.le_iff_lt_or_eq.symm

theorem less_of_isInt {x y : Number} (hx : x.isInt = true) (hy : y.isInt = true) :
    x.less y = decide (x.toInt64.toInt < y.toInt64.toInt) := by
  obtain ⟨i, rfl⟩ := exists_of_isInt hx
  obtain ⟨j, rfl⟩ := exists_of_isInt hy
  exact less_int_int i j

/-- An integer that a natural number is not less than is at most that number, also where the number
is too large for an integer itself. -/
theorem le_of_not_less {limit : Nat} {i : Int64} (h : (ofNat limit).less (.int i) = false) :
    i.toInt.toNat ≤ limit := by
  by_cases hfits : Fits limit
  · have hlimit : (Int64.ofInt limit).toInt = limit := Int64.toInt_ofInt_of_le hfits.1 hfits.2
    rw [ofNat, ofInt, ofIntOr, if_pos hfits, less_int_int, hlimit, decide_eq_false_iff_not] at h
    omega
  · have hi := Int64.toInt_lt i
    simp only [Fits] at hfits
    omega

theorem int_add_int (i j : Int64) : (int i + int j : Number) =
    ofIntOr (i.toInt + j.toInt) (Float.ofInt i.toInt + Float.ofInt j.toInt) :=
  rfl

theorem ofInt_toInt_add (i j : Int64) : Int64.ofInt (i.toInt + j.toInt) = i + j := by
  rw [Int64.ofInt_add, Int64.ofInt_toInt, Int64.ofInt_toInt]

/-- A sum that is still an integer is the sum of two integers, and has not wrapped around. -/
theorem add_of_isInt {x y : Number} (h : (x + y).isInt = true) :
    ∃ i j, x = int i ∧ y = int j ∧ x + y = int (i + j) := by
  cases x with
  | float x => cases y <;> cases h
  | int i =>
    cases y with
    | float y => cases h
    | int j =>
      refine ⟨i, j, rfl, rfl, ?_⟩
      rw [int_add_int] at h ⊢
      by_cases hfits : Fits (i.toInt + j.toInt)
      · rw [ofIntOr, if_pos hfits, ofInt_toInt_add]
      · rw [ofIntOr, if_neg hfits] at h
        cases h

theorem Fits.of_le {n m : Nat} (hm : Fits m) (h : n ≤ m) : Fits n := by
  unfold Fits at hm ⊢
  omega

theorem Fits.sub {n m : Nat} (hn : Fits n) (hm : Fits m) : Fits (n - m : Int) := by
  unfold Fits at hn hm ⊢
  omega

theorem toInt_ofInt_of_fits {i : Int} (h : Fits i) : (Int64.ofInt i).toInt = i :=
  Int64.toInt_ofInt_of_le h.1 h.2

theorem fits_toInt (i : Int64) : Fits i.toInt :=
  ⟨Int64.le_toInt i, Int64.toInt_lt i⟩

theorem ofInt_of_fits {i : Int} (h : Fits i) : ofInt i = int (Int64.ofInt i) :=
  if_pos h

theorem ofInt_add_ofInt {i j : Int} (hi : Fits i) (hj : Fits j) (hsum : Fits (i + j)) :
    ofInt i + ofInt j = ofInt (i + j) := by
  rw [ofInt_of_fits hi, ofInt_of_fits hj, ofInt_of_fits hsum, int_add_int, toInt_ofInt_of_fits hi,
    toInt_ofInt_of_fits hj, ofIntOr, if_pos hsum]

theorem int_add_int_of_fits {i j : Int64} (h : Fits (i.toInt + j.toInt)) :
    (int i + int j : Number) = int (i + j) := by
  rw [int_add_int, ofIntOr, if_pos h, ofInt_toInt_add]

theorem toInt_add_of_fits {i j : Int64} (h : Fits (i.toInt + j.toInt)) :
    (i + j).toInt = i.toInt + j.toInt := by
  rw [← ofInt_toInt_add, toInt_ofInt_of_fits h]

theorem int_sub_int (i j : Int64) : (int i - int j : Number) =
    ofIntOr (i.toInt - j.toInt) (Float.ofInt i.toInt - Float.ofInt j.toInt) :=
  rfl

theorem int_sub_int_of_fits {i j : Int64} (h : Fits (i.toInt - j.toInt)) :
    (int i - int j : Number) = int (i - j) := by
  rw [int_sub_int, ofIntOr, if_pos h, Int64.ofInt_sub, Int64.ofInt_toInt, Int64.ofInt_toInt]

theorem ofInt_sub_ofInt {i j : Int} (hi : Fits i) (hj : Fits j) (hdiff : Fits (i - j)) :
    ofInt i - ofInt j = ofInt (i - j) := by
  rw [ofInt_of_fits hi, ofInt_of_fits hj, ofInt_of_fits hdiff, int_sub_int, toInt_ofInt_of_fits hi,
    toInt_ofInt_of_fits hj, ofIntOr, if_pos hdiff]

theorem ofNat_sub_ofNat {n m : Nat} (hn : Fits n) (hm : Fits m) :
    ofNat n - ofNat m = ofInt (n - m) :=
  ofInt_sub_ofInt hn hm (hn.sub hm)

/-- The number is an integer, and this one. -/
def Equals (n : Number) (i : Int) : Prop :=
  ∃ j : Int64, n = .int j ∧ j.toInt = i

theorem equals_int (j : Int64) : (int j).Equals j.toInt :=
  ⟨j, rfl, rfl⟩

theorem equals_ofInt {i : Int} (h : Fits i) : (ofInt i).Equals i :=
  ⟨Int64.ofInt i, ofInt_of_fits h, toInt_ofInt_of_fits h⟩

theorem Equals.isInt {n : Number} {i : Int} (h : n.Equals i) : n.isInt = true := by
  obtain ⟨j, rfl, -⟩ := h
  rfl

theorem zero_add_of_isInt {x : Number} (h : (zero + x).isInt = true) : zero + x = x := by
  obtain ⟨i, j, hi, rfl, hsum⟩ := add_of_isInt h
  obtain rfl : 0 = i := Number.int.inj hi
  rw [hsum, Int64.zero_add]

end Number

end DiceNotation

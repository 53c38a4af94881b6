import DiceNotation.Chance.Face

/-! The faces that samples fall on. Whatever a sample is, the face is one that the die shows. -/

namespace DiceNotation

namespace Faces

/-- What is clamped to a range lies in it, unless the range is empty. -/
theorem clamp_bounds {low high : Int64} (h : low ≤ high) (i : Int64) :
    low ≤ max low (min i (max high low)) ∧ max low (min i (max high low)) ≤ high := by
  have hhigh : max high low = high := by
    by_cases hle : high ≤ low
    · rw [Int64.le_antisymm h hle]
      exact if_pos (Int64.le_refl high)
    · exact if_neg hle
  rw [hhigh]
  by_cases hi : i ≤ high
  · rw [show min i high = i from if_pos hi]
    by_cases hlow : low ≤ i
    · rw [show max low i = i from if_pos hlow]
      exact ⟨hlow, hi⟩
    · rw [show max low i = low from if_neg hlow]
      exact ⟨Int64.le_refl low, h⟩
  · rw [show min i high = high from if_neg hi, show max low high = high from if_pos h]
    exact ⟨h, Int64.le_refl high⟩

theorem stretch_bounds (sample : Float) {count : Int64} (h : 1 ≤ count) :
    1 ≤ stretch sample count ∧ stretch sample count ≤ count :=
  clamp_bounds h _

theorem ofSample_fate (sample : Float) :
    -1 ≤ ofSample sample .fate ∧ ofSample sample .fate ≤ 1 := by
  have h : (1 : Int64) ≤ 3 := by decide
  obtain ⟨hlow, hhigh⟩ := stretch_bounds sample h
  rw [ofSample]
  generalize stretch sample 3 = face at hlow hhigh
  simp only [Int64.le_iff_toInt_le, Int64.toInt_sub] at hlow hhigh ⊢
  have one : (1 : Int64).toInt = 1 := rfl
  have two : (2 : Int64).toInt = 2 := rfl
  have three : (3 : Int64).toInt = 3 := rfl
  have minusOne : (-1 : Int64).toInt = -1 := rfl
  rw [Int.bmod_def]
  omega

/-- The faces that a die shows: all from its lowest to its highest. -/
def Shows (faces : Faces Int64) (face : Int64) : Prop :=
  faces.lowest ≤ face ∧ face ≤ faces.highest

instance (faces : Faces Int64) (face : Int64) : Decidable (faces.Shows face) :=
  inferInstanceAs (Decidable (_ ∧ _))

theorem Shows.proper {faces : Faces Int64} {face : Int64} (h : faces.Shows face) :
    faces.lowest ≤ faces.highest :=
  Int64.le_trans h.1 h.2

/-- No die shows less than a fate die. -/
theorem neg_one_le_toInt {faces : Faces Int64} {face : Int64} (h : faces.Shows face) :
    -1 ≤ face.toInt := by
  have hlow := Int64.le_iff_toInt_le.mp h.1
  cases faces with
  | fate => exact hlow
  | sides count =>
    have one : (1 : Int64).toInt = 1 := rfl
    rw [lowest, one] at hlow
    omega

theorem shows_ofSample {faces : Faces Int64} (h : faces.lowest ≤ faces.highest) (sample : Float) :
    faces.Shows (faces.ofSample sample) := by
  cases faces with
  | fate => exact ofSample_fate sample
  | sides count => exact stretch_bounds sample h

end Faces

end DiceNotation

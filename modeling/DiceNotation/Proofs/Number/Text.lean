import DiceNotation.Number.Basic
import Mathlib.Data.List.Basic

/-! The text of a number has digits in it, a sign, a point, an exponent or the names of what is no
finite number; a tilde is in none of them. -/

namespace DiceNotation

theorem tilde_not_mem_toDigits (n : Nat) : '~' ∉ Nat.toDigits 10 n := by
  intro h
  have hdigit := Nat.isDigit_of_mem_toDigits (by decide) (by decide) h
  exact absurd hdigit (by decide)

theorem tilde_not_mem_repr (i : Int) : '~' ∉ i.repr.toList := by
  cases i with
  | ofNat n =>
    have htext : (Int.repr (.ofNat n)).toList = Nat.toDigits 10 n := Nat.toList_repr
    rw [htext]
    exact tilde_not_mem_toDigits n
  | negSucc n =>
    have htext : (Int.repr (.negSucc n)).toList = '-' :: Nat.toDigits 10 (n + 1) := by
      rw [← Nat.toList_repr]
      exact String.toList_append
    rw [htext]
    exact List.not_mem_cons_of_ne_of_not_mem (by decide) (tilde_not_mem_toDigits (n + 1))

theorem Decimal.tilde_not_mem_write (d : Decimal) : '~' ∉ d.write.toList := by
  have hdigits := tilde_not_mem_toDigits d.digits
  have htake (n : Nat) : '~' ∉ (Nat.toDigits 10 d.digits).take n :=
    fun h => hdigits (List.mem_of_mem_take h)
  have hdrop (n : Nat) : '~' ∉ (Nat.toDigits 10 d.digits).drop n :=
    fun h => hdigits (List.mem_of_mem_drop h)
  have hexponent := tilde_not_mem_repr
  unfold write
  dsimp only
  split
  · split
    · simp [hdigits]
    · split
      · simp [htake, hdrop]
      · simp [hdigits]
  · split
    · simp [htake, hexponent]
    · simp [htake, hdrop, hexponent, -List.drop_one]

theorem tilde_not_mem_floatText (x : Float) : '~' ∉ (floatText x).toList := by
  unfold floatText
  split
  · split
    · decide
    · split <;> decide
  · rename_i b _
    have hwrite := Decimal.tilde_not_mem_write (Decimal.shortest b)
    dsimp only
    split <;> split <;> simp [hwrite]

theorem Number.tilde_not_mem_text (n : Number) : '~' ∉ n.text.toList := by
  cases n with
  | int x => exact tilde_not_mem_repr x.toInt
  | float x => exact tilde_not_mem_floatText x

end DiceNotation

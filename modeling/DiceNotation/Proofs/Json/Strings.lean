import DiceNotation.Json.Reader
import DiceNotation.Json.Writer

/-!
Runs of JSON readers, and strings: a string is read as it was before it was quoted.
-/

namespace DiceNotation.Json

namespace Reader

section Runs

variable {α β : Type} {cs cs' : List Char}

theorem bind_run {r : Reader α} {a : α} (h : r cs = .ok (a, cs')) (f : α → Reader β) :
    (r >>= f) cs = f a cs' := by
  show r cs >>= (fun p => f p.1 p.2) = f a cs'
  rw [h]
  rfl

theorem map_run {r : Reader α} {a : α} (h : r cs = .ok (a, cs')) (f : α → β) :
    (f <$> r) cs = .ok (f a, cs') := by
  rw [map_eq_pure_bind, bind_run h]
  rfl

theorem exists_of_bind_ok {r : Reader α} {f : α → Reader β} {b : β}
    (h : (r >>= f) cs = .ok (b, cs')) : ∃ a ds, r cs = .ok (a, ds) ∧ f a ds = .ok (b, cs') := by
  have h' : r cs >>= (fun p => f p.1 p.2) = .ok (b, cs') := h
  cases hr : r cs with
  | error e =>
    rw [hr] at h'
    cases h'
  | ok p =>
    rw [hr] at h'
    exact ⟨p.1, p.2, rfl, h'⟩

theorem get_run : (get : Reader (List Char)) cs = .ok (cs, cs) :=
  rfl

theorem next_run (c : Char) : next (c :: cs) = .ok (c, cs) :=
  rfl

theorem peek_run (c : Char) : peek (c :: cs) = .ok (c, c :: cs) :=
  rfl

theorem expect_run (c : Char) : expect c (c :: cs) = .ok ((), cs) := by
  rw [expect, bind_run (next_run c)]
  simp only [ne_eq, not_true_eq_false, if_false]
  rfl

theorem accept_of_true {p : Char → Bool} {c : Char} (h : p c = true) :
    accept p (c :: cs) = .ok (true, cs) := by
  rw [accept, bind_run get_run]
  simp only [h, if_true]
  rfl

theorem accept_of_false {p : Char → Bool} {c : Char} (h : p c = false) :
    accept p (c :: cs) = .ok (false, c :: cs) := by
  rw [accept, bind_run get_run]
  simp only [h, Bool.false_eq_true, if_false]
  rfl

theorem skipBlanks_run : skipBlanks cs = .ok ((), cs.dropWhile isBlank) :=
  rfl

end Runs

theorem hexUnit_run {a b c d : Char} {w x y z : Nat} (ha : hexDigit? a = some w)
    (hb : hexDigit? b = some x) (hc : hexDigit? c = some y) (hd : hexDigit? d = some z)
    (cs : List Char) :
    hexUnit (a :: b :: c :: d :: cs) = .ok (((w * 16 + x) * 16 + y) * 16 + z, cs) := by
  have hlength : ¬ Text.byteLength [a, b, c, d] < 4 := by
    have := a.utf8Size_pos
    have := b.utf8Size_pos
    have := c.utf8Size_pos
    have := d.utf8Size_pos
    simp only [Text.byteLength]
    omega
  rw [hexUnit, bind_run get_run]
  simp [hlength, ha, hb, hc, hd]
  rfl

theorem hexDigit?_hexDigit (n : Nat) : hexDigit? (hexDigit n) = some (n % 16) := by
  have hdigits : ∀ m < 16, hexDigit? (Nat.digitChar m) = some m := by decide
  exact hdigits (n % 16) (Nat.mod_lt n (by decide))

theorem escape_control {c : Char} (hc : c < ' ') (cs : List Char) :
    escape ('u' :: '0' :: '0' :: hexDigit (c.toNat / 16) :: hexDigit c.toNat :: cs) = .ok (c, cs) := by
  have hlt : c.toNat < 32 := hc
  have hunit := hexUnit_run (a := '0') (b := '0') (w := 0) (x := 0) rfl rfl
    (hexDigit?_hexDigit (c.toNat / 16)) (hexDigit?_hexDigit c.toNat) cs
  have hvalue : ((0 * 16 + 0) * 16 + c.toNat / 16 % 16) * 16 + c.toNat % 16 = c.toNat := by omega
  rw [hvalue] at hunit
  rw [escape, bind_run (next_run 'u')]
  show unicodeEscape _ = _
  rw [unicodeEscape, bind_run hunit]
  have hlow : ¬ (0xDC00 ≤ c.toNat ∧ c.toNat ≤ 0xDFFF) := by omega
  have hhigh : ¬ (0xD800 ≤ c.toNat ∧ c.toNat ≤ 0xDBFF) := by omega
  simp only [hlow, hhigh, if_false, Char.ofNat_toNat]
  rfl

theorem stringRest_escape {cs ds : List Char} {c : Char} (h : escape cs = .ok (c, ds)) (n : Nat) :
    stringRest (n + 1) ('\\' :: cs) = ((c :: ·) <$> stringRest n) ds := by
  rw [stringRest, bind_run (next_run '\\')]
  exact bind_run h _

theorem stringRest_plain {c : Char} (hquote : c ≠ '"') (hslash : c ≠ '\\') (hc : ¬ c < ' ') (n : Nat)
    (cs : List Char) : stringRest (n + 1) (c :: cs) = ((c :: ·) <$> stringRest n) cs := by
  rw [stringRest, bind_run (next_run c)]
  split
  · exact absurd rfl hquote
  · exact absurd rfl hslash
  · rw [if_neg hc]
    rfl

theorem stringRest_escapeChar (c : Char) (n : Nat) (cs : List Char) :
    stringRest (n + 1) (escapeChar c ++ cs) = ((c :: ·) <$> stringRest n) cs := by
  unfold escapeChar
  split
  case h_8 hquote hslash _ _ _ _ _ =>
    split
    · rename_i hc
      exact stringRest_escape (escape_control hc cs) n
    · rename_i hc
      exact stringRest_plain hquote hslash hc n cs
  all_goals exact stringRest_escape rfl n

theorem stringRest_quoted (s rest : List Char) {n : Nat} (h : s.length < n) :
    stringRest n (s.flatMap escapeChar ++ '"' :: rest) = .ok (s, rest) := by
  obtain ⟨m, rfl⟩ : ∃ m, n = m + 1 := ⟨n - 1, by omega⟩
  induction s generalizing m with
  | nil => rfl
  | cons c s ih =>
    rw [List.length_cons, Nat.add_lt_add_iff_right] at h
    obtain ⟨k, rfl⟩ : ∃ k, m = k + 1 := ⟨m - 1, by omega⟩
    rw [List.flatMap_cons, List.append_assoc, stringRest_escapeChar]
    exact map_run (ih k h) _

theorem length_le_flatMap_escapeChar (s : List Char) :
    s.length ≤ (s.flatMap escapeChar).length := by
  induction s with
  | nil => exact Nat.zero_le _
  | cons c s ih =>
    have hpos : 0 < (escapeChar c).length := by
      unfold escapeChar
      repeat' split
      all_goals exact Nat.succ_pos _
    rw [List.flatMap_cons, List.length_append, List.length_cons]
    omega

end Reader

theorem toList_quote (s : String) :
    (quote s).toList = '"' :: (s.toList.flatMap escapeChar ++ ['"']) := by
  simp [quote]

/-- A quoted string is read as it was, whatever follows it. -/
theorem Reader.string_quote (s : String) (rest : List Char) :
    string ((quote s).toList ++ rest) = .ok (s, rest) := by
  have hlength : s.toList.length < (s.toList.flatMap escapeChar ++ '"' :: rest).length + 1 := by
    have := length_le_flatMap_escapeChar s.toList
    rw [List.length_append]
    omega
  rw [toList_quote, List.cons_append, List.append_assoc, string, bind_run (expect_run '"'),
    bind_run get_run]
  refine (map_run (stringRest_quoted s.toList rest hlength) _).trans ?_
  rw [String.ofList_toList]

end DiceNotation.Json

import DiceNotation.Proofs.Json.Strings
import Mathlib.Data.List.TakeWhile

/-!
Numbers in JSON. An integer is read as it was written; and where a number ends before a comma or a
closing bracket, it is read as it is alone.
-/

namespace DiceNotation.Json.Reader

/-- What may follow a value: nothing, or what separates or encloses values. -/
def Stops : List Char → Prop
  | [] => True
  | c :: _ => c = ',' ∨ c = ']' ∨ c = '\x7d'

/-- A character that cannot stop a value. -/
def Inner (p : Char → Bool) : Prop :=
  ∀ c, c = ',' ∨ c = ']' ∨ c = '\x7d' → p c = false

theorem inner_isDigit : Inner Char.isDigit := by
  rintro c (rfl | rfl | rfl) <;> rfl

theorem inner_isExponentMark : Inner isExponentMark := by
  rintro c (rfl | rfl | rfl) <;> rfl

theorem inner_isBlank : Inner isBlank := by
  rintro c (rfl | rfl | rfl) <;> rfl

theorem takeWhile_append_of_stops {rest : List Char} (h : Stops rest) {p : Char → Bool}
    (hp : Inner p) (cs : List Char) : (cs ++ rest).takeWhile p = cs.takeWhile p ∧
      (cs ++ rest).dropWhile p = cs.dropWhile p ++ rest := by
  induction cs with
  | nil =>
    cases rest with
    | nil => exact ⟨rfl, rfl⟩
    | cons c rest => simp [hp c h]
  | cons c cs ih =>
    rw [List.cons_append, List.takeWhile_cons, List.takeWhile_cons, List.dropWhile_cons,
      List.dropWhile_cons, ih.1, ih.2]
    split <;> exact ⟨rfl, rfl⟩

/-- A reader that stops where the text ends also stops before what ends a value. -/
def Steady {α : Type} (r : Reader α) : Prop :=
  ∀ cs cs' rest a, Stops rest → r cs = .ok (a, cs') → r (cs ++ rest) = .ok (a, cs' ++ rest)

section Steady

variable {α β : Type}

theorem steady_pure (a : α) : Steady (pure a : Reader α) := by
  intro cs cs' rest b _ h
  cases h
  rfl

theorem steady_throw (e : Flaw) : Steady (throw e : Reader α) := by
  intro cs cs' rest b _ h
  cases h

theorem Steady.bind {r : Reader α} {f : α → Reader β} (h : Steady r) (hf : ∀ a, Steady (f a)) :
    Steady (r >>= f) := by
  intro cs cs' rest b hrest hb
  obtain ⟨a, ds, hr, hfa⟩ := exists_of_bind_ok hb
  rw [bind_run (h _ _ _ _ hrest hr)]
  exact hf a _ _ _ _ hrest hfa

theorem steady_peek : Steady peek := by
  intro cs cs' rest c _ h
  cases cs with
  | nil => cases h
  | cons d cs =>
    cases h
    rfl

theorem steady_accept {p : Char → Bool} (hp : Inner p) : Steady (accept p) := by
  intro cs cs' rest b hrest h
  cases cs with
  | nil =>
    cases h
    cases rest with
    | nil => rfl
    | cons c rest => exact accept_of_false (hp c hrest)
  | cons c cs =>
    cases hc : p c with
    | true =>
      rw [accept_of_true hc] at h
      cases h
      exact accept_of_true hc
    | false =>
      rw [accept_of_false hc] at h
      cases h
      exact accept_of_false hc

theorem takeDigits_run (cs : List Char) :
    takeDigits cs = .ok (cs.takeWhile Char.isDigit, cs.dropWhile Char.isDigit) :=
  rfl

theorem steady_takeDigits : Steady takeDigits := by
  intro cs cs' rest ds hrest h
  obtain ⟨htake, hdrop⟩ := takeWhile_append_of_stops hrest inner_isDigit cs
  cases h
  rw [takeDigits_run, htake, hdrop]

/-- A steady reader that reads nothing but numbers. -/
structure Numeric (r : Reader Json) : Prop where
  steady : Steady r
  isSome : ∀ cs v rest, r cs = .ok (v, rest) → v.number?.isSome = true

section Numeric

variable {r s : Reader Json}

theorem numeric_pure {v : Json} (h : v.number?.isSome = true) : Numeric (pure v) := by
  refine ⟨steady_pure v, fun cs w rest hw => ?_⟩
  cases hw
  exact h

theorem numeric_throw (e : Flaw) : Numeric (throw e) :=
  ⟨steady_throw e, nofun⟩

theorem Numeric.ite {p : Prop} [Decidable p] (hr : Numeric r) (hs : Numeric s) :
    Numeric (if p then r else s) := by
  split
  · exact hr
  · exact hs

theorem Steady.bind_numeric {q : Reader α} {f : α → Reader Json} (hq : Steady q)
    (hf : ∀ a, Numeric (f a)) : Numeric (q >>= f) := by
  refine ⟨hq.bind fun a => (hf a).steady, fun cs v rest h => ?_⟩
  obtain ⟨a, ds, -, hfa⟩ := exists_of_bind_ok h
  exact (hf a).isSome ds v rest hfa

theorem numeric_check {p : Prop} [Decidable p] {e : Flaw} {next : Unit → Reader Json}
    (h : ∀ u, Numeric (next u)) : Numeric (if p then throw e >>= next else next ()) :=
  ((steady_throw e).bind_numeric h).ite (h ())

end Numeric

theorem numeric_scale (negative : Bool) (significand : Nat) (exponent : Int) :
    Numeric (scale negative significand exponent) := by
  have hfloat (magnitude : Float) :
      Numeric (pure (.float (if negative then -magnitude else magnitude))) := numeric_pure rfl
  unfold scale
  dsimp only
  refine ((steady_pure _).bind_numeric hfloat).ite (.ite (.ite ?_ ?_) (.ite ?_ ?_))
  · exact (steady_throw _).bind_numeric hfloat
  · exact (steady_pure _).bind_numeric hfloat
  · exact (steady_pure _).bind_numeric hfloat
  · exact (steady_throw _).bind_numeric hfloat

theorem numeric_exponentPart (negative : Bool) (significand : Nat) (exponent : Int) :
    Numeric (exponentPart negative significand exponent) := by
  have hdigits (minus : Bool) : Numeric (do
      let c ← peek
      if !c.isDigit then throw .malformed
      let n := Decimal.natOfDigits (← takeDigits)
      if n ≤ exponentLimit then
        scale negative significand (if minus then exponent - n else exponent + n)
      else if significand ≠ 0 ∧ !minus then throw .malformed
      else scale negative 0 0) :=
    steady_peek.bind_numeric fun c => numeric_check fun _ => steady_takeDigits.bind_numeric fun ds =>
      (numeric_scale _ _ _).ite ((numeric_throw _).ite (numeric_scale _ _ _))
  have hplus : Inner (· == '+') := by rintro c (rfl | rfl | rfl) <;> rfl
  have hminus : Inner (· == '-') := by rintro c (rfl | rfl | rfl) <;> rfl
  exact (steady_accept hplus).bind_numeric fun plus =>
    ((steady_pure _).bind_numeric hdigits).ite ((steady_accept hminus).bind_numeric hdigits)

theorem number?_plain (negative : Bool) (significand : Nat) :
    (plain negative significand).number?.isSome = true := by
  unfold plain
  split
  · split <;> rfl
  · rfl

theorem numeric_number : Numeric number := by
  have hminus : Inner (· == '-') := by rintro c (rfl | rfl | rfl) <;> rfl
  have hpoint : Inner (· == '.') := by rintro c (rfl | rfl | rfl) <;> rfl
  refine (steady_accept hminus).bind_numeric fun negative => steady_peek.bind_numeric fun c =>
    numeric_check fun _ => steady_takeDigits.bind_numeric fun whole => numeric_check fun _ =>
      (steady_accept hpoint).bind_numeric fun point => .ite ?_ ?_
  · refine steady_peek.bind_numeric fun d => numeric_check fun _ =>
      steady_takeDigits.bind_numeric fun fraction =>
        (steady_accept inner_isExponentMark).bind_numeric fun mark => .ite ?_ ?_
    · exact numeric_exponentPart _ _ _
    · exact numeric_scale _ _ _
  · refine (steady_accept inner_isExponentMark).bind_numeric fun mark => .ite ?_ (.ite ?_ ?_)
    · exact numeric_exponentPart _ _ _
    · exact numeric_pure (number?_plain _ _)
    · exact numeric_scale _ _ _

end Steady

theorem le_foldl_digits (ds : List Char) (n : Nat) :
    n ≤ ds.foldl (fun n c => 10 * n + Decimal.digitValue c) n := by
  induction ds generalizing n with
  | nil => exact Nat.le_refl n
  | cons c ds ih => exact Nat.le_trans (by omega) (ih (10 * n + Decimal.digitValue c))

theorem wholeDigits_of_le {ds : List Char} {n : Nat}
    (h : ds.foldl (fun n c => 10 * n + Decimal.digitValue c) n ≤ significandLimit) :
    wholeDigits n ds = (ds.foldl (fun n c => 10 * n + Decimal.digitValue c) n, 0) := by
  induction ds generalizing n with
  | nil => rfl
  | cons c ds ih =>
    rw [List.foldl_cons] at h
    rw [wholeDigits, if_pos (Nat.le_trans (le_foldl_digits ds _) h), ih h, List.foldl_cons]

/-- No zero stands in front of other digits. -/
theorem toDigits_eq_of_zero {n : Nat} {c : Char} {cs : List Char} (h : Nat.toDigits 10 n = c :: cs)
    (hc : c = '0') : cs = [] := by
  induction n using Nat.strongRecOn generalizing c cs with
  | ind n ih =>
    by_cases hn : n < 10
    · rw [Nat.toDigits_of_lt_base hn] at h
      exact (List.cons.inj h).2.symm
    · obtain ⟨d, ds, hds⟩ := List.exists_cons_of_ne_nil (Nat.toDigits_ne_nil (n := n / 10) (b := 10))
      rw [Nat.toDigits_of_base_le (by decide) (by omega), hds, List.cons_append] at h
      obtain ⟨rfl, -⟩ := List.cons.inj h
      have hvalue := Nat.ofDigitChars_ten_toDigits (n := n / 10)
      rw [hds, ih (n / 10) (by omega) hds hc, hc] at hvalue
      exact absurd (Nat.div_eq_zero_iff.mp hvalue.symm) (by omega)

theorem number_digits {cs : List Char} {negative : Bool} {n : Nat}
    (hsign : accept (· == '-') cs = .ok (negative, Nat.toDigits 10 n)) (h : n ≤ significandLimit) :
    number cs = .ok (plain negative n, []) := by
  obtain ⟨c, ds, hds⟩ := List.exists_cons_of_ne_nil (Nat.toDigits_ne_nil (n := n) (b := 10))
  have hdigit : ∀ d ∈ c :: ds, d.isDigit = true := fun d hd =>
    Nat.isDigit_of_mem_toDigits (by decide) (by decide) (hds ▸ hd)
  have hvalue : (c :: ds).foldl (fun n c => 10 * n + Decimal.digitValue c) 0 = n := by
    rw [← hds]
    exact Nat.ofDigitChars_eq_foldl.symm.trans Nat.ofDigitChars_ten_toDigits
  have hwhole : wholeDigits 0 (c :: ds) = (n, 0) := by
    rw [wholeDigits_of_le (hvalue.symm ▸ h), hvalue]
  have hzero : ¬ ((c == '0') = true ∧ (c :: ds).length ≠ 1) := by
    rintro ⟨hc, hlength⟩
    rw [toDigits_eq_of_zero hds (beq_iff_eq.mp hc)] at hlength
    exact hlength rfl
  have htake : takeDigits (c :: ds) = .ok (c :: ds, []) := by
    rw [takeDigits_run, List.takeWhile_eq_self_iff.mpr hdigit, List.dropWhile_eq_nil_iff.mpr hdigit]
  rw [hds] at hsign
  rw [number, bind_run hsign, bind_run (peek_run c)]
  simp only [hdigit c List.mem_cons_self, Bool.not_true, Bool.false_eq_true, if_false]
  rw [bind_run htake]
  simp only [hzero, if_false, hwhole]
  rfl

/-- The integers that are read as integers. -/
def IntegerRange (i : Int) : Prop :=
  -0x8000000000000000 ≤ i ∧ i ≤ significandLimit

theorem number_toString {i : Int} (h : IntegerRange i) {rest : List Char} (hrest : Stops rest) :
    number ((toString i).toList ++ rest) = .ok (.integer i, rest) := by
  obtain ⟨hlow, hhigh⟩ := h
  refine numeric_number.steady _ [] rest _ hrest ?_
  rw [Int.toString_eq_repr]
  cases i with
  | ofNat n =>
    have hdigits : (Int.repr (.ofNat n)).toList = Nat.toDigits 10 n := Nat.toList_repr
    have hsign : accept (· == '-') (Nat.toDigits 10 n) = .ok (false, Nat.toDigits 10 n) := by
      obtain ⟨c, ds, hds⟩ := List.exists_cons_of_ne_nil (Nat.toDigits_ne_nil (n := n) (b := 10))
      have hc : c.isDigit = true :=
        Nat.isDigit_of_mem_toDigits (by decide) (by decide) (hds ▸ List.mem_cons_self)
      rw [hds]
      refine accept_of_false (beq_false_of_ne ?_)
      rintro rfl
      cases hc
    rw [hdigits, number_digits hsign (Int.ofNat_le.mp hhigh)]
    rfl
  | negSucc n =>
    have hdigits : (Int.repr (.negSucc n)).toList = '-' :: Nat.toDigits 10 (n + 1) := by
      rw [← Nat.toList_repr]
      exact String.toList_append
    have hsign : accept (· == '-') ('-' :: Nat.toDigits 10 (n + 1)) =
        .ok (true, Nat.toDigits 10 (n + 1)) := accept_of_true rfl
    have hsize : ¬ (n + 1 = 0 ∨ 0x8000000000000000 < n + 1) := by omega
    have hlimit : n + 1 ≤ significandLimit := by
      unfold significandLimit
      omega
    rw [hdigits, number_digits hsign hlimit, plain, if_pos rfl, if_neg hsize]
    rfl

theorem exists_cons_of_number {cs rest : List Char} {v : Json} (h : number cs = .ok (v, rest)) :
    ∃ c ds, cs = c :: ds ∧ (c == '-' || c.isDigit) = true := by
  cases cs with
  | nil => cases h
  | cons c ds =>
    refine ⟨c, ds, rfl, ?_⟩
    cases hminus : c == '-' with
    | true => rfl
    | false =>
      cases hdigit : c.isDigit with
      | true => rfl
      | false =>
        have hsign : accept (· == '-') (c :: ds) = .ok (false, c :: ds) := accept_of_false hminus
        rw [number, bind_run hsign, bind_run (peek_run c), hdigit] at h
        cases h

theorem dropWhile_of_start {c : Char} (h : (c == '-' || c.isDigit) = true) (cs : List Char) :
    (c :: cs).dropWhile isBlank = c :: cs := by
  have hblank : isBlank c = false := by
    rw [isBlank, Bool.or_eq_false_iff, Bool.or_eq_false_iff, Bool.or_eq_false_iff]
    refine ⟨⟨⟨?_, ?_⟩, ?_⟩, ?_⟩ <;>
    · refine beq_false_of_ne ?_
      rintro rfl
      cases h
  rw [List.dropWhile_cons, hblank]
  rfl

end DiceNotation.Json.Reader

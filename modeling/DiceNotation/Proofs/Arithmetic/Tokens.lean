import DiceNotation.Grammar.Basic
import DiceNotation.Proofs.Arithmetic.Basic
import DiceNotation.Proofs.Token.Spelling

/-! The tokens of arithmetic, which its text spells. A number ends where a blank or a parenthesis
follows, and so does every tree. -/

namespace DiceNotation

open Token (Kind Piece Spells)

def Operator.kind : Operator → Kind
  | .add => .plus
  | .sub => .minus
  | .mul => .star
  | .div => .slash
  | .rem => .percent
  | .pow => .starStar

/-- The tokens of a tree where one of the given rank may stand. -/
def Arith.tokens : Arith → Nat → List Piece
  | literal n, _ => [(.integer, n.text.toList)]
  | dice count sides, _ =>
    [(.integer, count.text.toList), (.dice, ['d']), (.integer, sides.text.toList)]
  | neg a, rank =>
    let ps := (.minus, ['-']) :: a.tokens 2
    if 2 < rank then (.leftParen, ['(']) :: ps ++ [(.rightParen, [')'])] else ps
  | binary op a b, rank =>
    let ps := a.tokens op.leftRank ++ (op.kind, op.symbol.toList) :: b.tokens op.rightRank
    if op.rank < rank then (.leftParen, ['(']) :: ps ++ [(.rightParen, [')'])] else ps

namespace Literal

theorem toList_text (n : Literal) : n.text.toList = Nat.toDigits 10 n.val :=
  Nat.toList_repr

theorem isDigit_of_mem_text {n : Literal} {c : Char} (h : c ∈ n.text.toList) :
    c.isDigit = true := by
  rw [toList_text] at h
  exact Nat.isDigit_of_mem_toDigits (by decide) (by decide) h

theorem exists_text_eq_cons (n : Literal) :
    ∃ c cs, n.text.toList = c :: cs ∧ c.isDigit = true := by
  obtain ⟨c, cs, h⟩ := List.exists_cons_of_ne_nil (Nat.toDigits_ne_nil (n := n.val) (b := 10))
  rw [← toList_text] at h
  exact ⟨c, cs, h, isDigit_of_mem_text (h ▸ List.mem_cons_self)⟩

/-- The digits of a literal are read as its value. -/
theorem integer?_text (n : Literal) :
    Parser.integer? n.text.toList = some (Int64.ofInt n.val) := by
  have hvalue : Decimal.natOfDigits n.text.toList = n.val := by
    rw [toList_text]
    exact Nat.ofDigitChars_eq_foldl.symm.trans Nat.ofDigitChars_ten_toDigits
  rw [Parser.integer?, hvalue]
  exact if_pos n.isLt

end Literal

section Spelling

variable {cs : List Char} {ps : List Piece}

theorem Literal.spells (n : Literal) (hcs : ∀ c ∈ cs.head?, c.isDigit = false ∧ c ≠ '.')
    (h : Spells cs ps) : Spells (n.text.toList ++ cs) ((.integer, n.text.toList) :: ps) := by
  obtain ⟨d, ds, htext, hd⟩ := n.exists_text_eq_cons
  have hlexeme : Token.lexeme (n.text.toList ++ cs) = (.integer, n.text.toList.length) :=
    Token.lexeme_digits (by simp [htext]) (fun c hc => isDigit_of_mem_text hc) hcs
  rw [htext] at hlexeme ⊢
  exact .cons (Token.isBlank_of_isDigit hd) hlexeme h

theorem Operator.spells (op : Operator) (h : Spells cs ps) :
    Spells (op.symbol.toList ++ ' ' :: cs) ((op.kind, op.symbol.toList) :: ps) := by
  cases op with
  | add => exact .single rfl rfl h.blank
  | sub => exact .single rfl rfl h.blank
  | mul => exact .single rfl rfl h.blank
  | div => exact .single rfl rfl h.blank
  | rem => exact .single rfl rfl h.blank
  | pow => exact @Spells.cons '*' ['*'] (' ' :: cs) .starStar ps rfl rfl h.blank

theorem Literal.spells_dice (n : Literal) (h : Spells (n.text.toList ++ cs) ps) :
    Spells ('d' :: (n.text.toList ++ cs)) ((.dice, ['d']) :: ps) := by
  obtain ⟨d, ds, htext, hd⟩ := n.exists_text_eq_cons
  rw [htext] at h ⊢
  exact .single rfl (Token.lexeme_dice hd _) h

theorem not_isDigit_of_ends (hcs : ∀ c ∈ cs.head?, c = ' ' ∨ c = ')') :
    ∀ c ∈ cs.head?, c.isDigit = false ∧ c ≠ '.' := by
  intro c hc
  rcases hcs c hc with rfl | rfl <;> simp

/-- The text spells the pieces before everything that ends a tree. -/
def Writes (text : String) (qs : List Piece) : Prop :=
  ∀ cs ps, (∀ c ∈ cs.head?, c = ' ' ∨ c = ')') → Spells cs ps →
    Spells (text.toList ++ cs) (qs ++ ps)

theorem Writes.parenthesized {text : String} {qs : List Piece} (h : Writes text qs) :
    Writes ("(" ++ text ++ ")") ((.leftParen, ['(']) :: qs ++ [(.rightParen, [')'])]) := by
  intro cs ps _ hrest
  have hclose : Spells (')' :: cs) ((.rightParen, [')']) :: ps) := .single rfl rfl hrest
  have hinner := h _ _ (by simp) hclose
  have hopen : Spells ('(' :: (text.toList ++ ')' :: cs))
      ((.leftParen, ['(']) :: (qs ++ (.rightParen, [')']) :: ps)) := .single rfl rfl hinner
  simpa using hopen

/-- An operator between two texts, with blanks around it. -/
theorem Writes.binary (op : Operator) {left right : String} {ps qs : List Piece}
    (hleft : Writes left ps) (hright : Writes right qs) :
    Writes (left ++ " " ++ op.symbol ++ " " ++ right) (ps ++ (op.kind, op.symbol.toList) :: qs) := by
  intro cs rs hcs h
  have hop := (op.spells (hright cs rs hcs h)).blank
  simpa using hleft _ _ (by simp) hop

theorem Arith.writes (spaced : Bool) (e : Arith) (rank : Nat) :
    Writes (e.textAt spaced rank) (e.tokens rank) := by
  induction e generalizing rank with
  | literal n =>
    intro cs ps hcs h
    exact n.spells (not_isDigit_of_ends hcs) h
  | dice count sides =>
    intro cs ps hcs h
    have hsides := sides.spells (not_isDigit_of_ends hcs) h
    have hcount := count.spells (by simp) (sides.spells_dice hsides)
    simpa [textAt, tokens] using hcount
  | neg a ih =>
    have hminus : Writes ((if spaced then "- " else "-") ++ a.textAt spaced 2)
        ((.minus, ['-']) :: a.tokens 2) := by
      intro cs ps hcs h
      have ha := ih 2 cs ps hcs h
      cases spaced with
      | false => simpa using Token.Spells.single rfl rfl ha
      | true => simpa using Token.Spells.single rfl rfl ha.blank
    by_cases h : 2 < rank
    · simpa only [textAt, tokens, if_pos h] using hminus.parenthesized
    · simpa only [textAt, tokens, if_neg h] using hminus
  | binary op a b iha ihb =>
    have hbinary : Writes (a.textAt spaced op.leftRank ++ " " ++ op.symbol ++ " " ++
        b.textAt spaced op.rightRank)
        (a.tokens op.leftRank ++ (op.kind, op.symbol.toList) :: b.tokens op.rightRank) :=
      (iha op.leftRank).binary op (ihb op.rightRank)
    by_cases h : op.rank < rank
    · simpa only [textAt, tokens, if_pos h] using hbinary.parenthesized
    · simpa only [textAt, tokens, if_neg h] using hbinary

end Spelling

end DiceNotation

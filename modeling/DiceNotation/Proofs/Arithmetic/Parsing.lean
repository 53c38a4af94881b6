import DiceNotation.Proofs.Arithmetic.Meaning
import DiceNotation.Proofs.Arithmetic.Tokens
import DiceNotation.Proofs.Grammar.Phrases

/-! Arithmetic is parsed as what it means. The text of a tree spells its tokens, the grammar derives
from them a phrase that the parser reads, and what it reads comes to the same as the tree. -/

namespace DiceNotation

open Token (Kind Piece)

/-- The pieces are those of a phrase that may stand at the rank, and what it is read as comes to a
number in the given way. -/
def Denotes (rank : Nat) (ps : List Piece) (p : Play Number) : Prop :=
  ∃ phrase, rank ≤ phrase.rank ∧ Derives phrase ps ∧ phrase.formula.Means p

variable {rank : Nat} {ps qs : List Piece} {p q : Play Number}

theorem Derives.denotes {phrase : Phrase} (h : Derives phrase ps)
    (hmeans : phrase.formula.Means p) (hrank : rank ≤ phrase.rank) : Denotes rank ps p :=
  ⟨phrase, hrank, h, hmeans⟩

theorem Denotes.mono {rank' : Nat} (h : Denotes rank ps p) (hle : rank' ≤ rank) :
    Denotes rank' ps p := by
  obtain ⟨phrase, hrank, hderives, hmeans⟩ := h
  exact ⟨phrase, by omega, hderives, hmeans⟩

theorem Denotes.parenthesized {l r : List Char} (h : Denotes rank ps p) :
    Denotes 4 ((.leftParen, l) :: ps ++ [(.rightParen, r)]) p := by
  obtain ⟨phrase, hrank, hderives, hmeans⟩ := h
  obtain ⟨head, tail, hsum, hformula⟩ := hderives.sum
  rw [← hformula] at hmeans
  exact hsum.parenthesized.denotes hmeans (Nat.le_refl _)

theorem Denotes.minus {text : List Char} (h : Denotes 2 ps p) :
    Denotes 2 ((.minus, text) :: ps) ((.int (-1) * ·) <$> p) := by
  obtain ⟨phrase, hrank, hderives, hmeans⟩ := h
  exact (hderives.signed_of_rank hrank).minus.denotes (means_opposite hmeans) (Nat.le_succ 2)

section Operators

variable {k : Kind} {text : List Char}

theorem Denotes.plus {op : Sign} (hop : Parser.sign? k = some op) (hleft : Denotes 0 ps p)
    (hright : Denotes 1 qs q) :
    Denotes 0 (ps ++ (k, text) :: qs) (combined op.toOperator p q) := by
  obtain ⟨left, -, hleft, hp⟩ := hleft
  obtain ⟨right, hr, hright, hq⟩ := hright
  obtain ⟨head, tail, hleft, hhead⟩ := hleft.sum
  obtain ⟨head', tail', hright, hhead'⟩ := hright.product_of_rank hr
  rw [← hhead] at hp
  rw [← hhead'] at hq
  exact (hleft.plus hop hright).denotes (means_plus hp hq) (Nat.le_refl _)

theorem Denotes.times {op : Operator} (hop : Parser.multiplier? k = some op)
    (hleft : Denotes 1 ps p) (hright : Denotes 2 qs q) :
    Denotes 1 (ps ++ (k, text) :: qs) (combined op p q) := by
  obtain ⟨left, hl, hleft, hp⟩ := hleft
  obtain ⟨right, hr, hright, hq⟩ := hright
  obtain ⟨head, tail, hleft, hhead⟩ := hleft.product_of_rank hl
  rw [← hhead] at hp
  exact (hleft.times hop (hright.signed_of_rank hr)).denotes (means_times hp hq) (Nat.le_refl _)

theorem Denotes.power (hleft : Denotes 4 ps p) (hright : Denotes 2 qs q) :
    Denotes 3 (ps ++ (.starStar, text) :: qs) (combined .pow p q) := by
  obtain ⟨left, hl, hleft, hp⟩ := hleft
  obtain ⟨right, hr, hright, hq⟩ := hright
  exact ((hleft.term_of_rank hl).power (hright.signed_of_rank hr)).denotes (means_power hp hq)
    (Nat.le_refl _)

theorem Denotes.binary (op : Operator) (hleft : Denotes op.leftRank ps p)
    (hright : Denotes op.rightRank qs q) :
    Denotes op.rank (ps ++ (op.kind, text) :: qs) (combined op p q) := by
  cases op with
  | add =>
    have hop : Parser.sign? Operator.add.kind = some .plus := rfl
    exact Denotes.plus hop hleft hright
  | sub =>
    have hop : Parser.sign? Operator.sub.kind = some .minus := rfl
    exact Denotes.plus hop hleft hright
  | mul => exact Denotes.times rfl hleft hright
  | div => exact Denotes.times rfl hleft hright
  | rem => exact Denotes.times rfl hleft hright
  | pow => exact hleft.power hright

end Operators

theorem Arith.denotes (e : Arith) {rank : Nat} (h : rank ≤ 4) :
    Denotes rank (e.tokens rank) e.eval := by
  induction e generalizing rank with
  | literal n => exact (Derives.literal n.integer?_text).denotes (means_literal n) h
  | dice count sides =>
    exact (Derives.dice count.integer?_text sides.integer?_text).denotes (means_dice count sides) h
  | neg a ih =>
    have hminus : Denotes 2 ((.minus, ['-']) :: a.tokens 2) (neg a).eval := (ih (by decide)).minus
    unfold tokens
    split
    · exact hminus.parenthesized.mono h
    · exact hminus.mono (by omega)
  | binary op a b iha ihb =>
    have hleft : op.leftRank ≤ 4 := by cases op <;> decide
    have hright : op.rightRank ≤ 4 := by cases op <;> decide
    have hbinary : Denotes op.rank
        (a.tokens op.leftRank ++ (op.kind, op.symbol.toList) :: b.tokens op.rightRank)
        (binary op a b).eval := by
      rw [eval_binary]
      exact (iha hleft).binary op (ihb hright)
    unfold tokens
    split
    · exact hbinary.parenthesized.mono h
    · exact hbinary.mono (by omega)

/-- Arithmetic text means what the ranks of its operators say. It is parsed, and from every source and
under every limit the formula comes to the same number or the same error as the tree, and draws the
same samples. -/
theorem parse_text_result (spaced : Bool) (e : Arith) :
    ∃ f, Formula.parse (e.text spaced) = .ok f ∧
      ∀ table cursor, f.result table cursor = e.eval table cursor := by
  obtain ⟨phrase, -, hderives, hmeans⟩ := e.denotes (Nat.zero_le 4)
  have hspells := e.writes spaced 0 [] [] (by simp) .nil
  rw [List.append_nil, List.append_nil] at hspells
  refine ⟨phrase.formula, hderives.parse hspells, fun table cursor => ?_⟩
  rw [hmeans.result]

end DiceNotation

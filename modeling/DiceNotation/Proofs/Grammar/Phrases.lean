import DiceNotation.Proofs.Grammar.Completeness

/-! The grammar of arithmetic, over tokens without their places, with what its phrases are read as.
It is the part of the whole grammar that arithmetic needs. -/

namespace DiceNotation

open Token (Kind Piece)

/-- What the pieces of a phrase are read as. A product and a sum are chains that may still grow. -/
inductive Phrase where
  | term (f : Formula)
  | signed (f : Formula)
  | product (head : Formula) (tail : List (Operator × Formula))
  | sum (head : Formula) (tail : List (Sign × Formula))

namespace Phrase

def formula : Phrase → Formula
  | term f | signed f => f
  | product head tail => Parser.productOf head tail
  | sum head tail => Parser.sumOf head tail

/-- The highest rank at which the phrase may stand without parentheses. -/
def rank : Phrase → Nat
  | term _ => 4
  | signed _ => 3
  | product .. => 1
  | sum .. => 0

end Phrase

inductive Derives : Phrase → List Piece → Prop
  | literal {digits : List Char} {i : Int64} (h : Parser.integer? digits = some i) :
      Derives (.term (.int i)) [(.integer, digits)]
  | dice {digits digits' d : List Char} {i j : Int64} (hcount : Parser.integer? digits = some i)
      (hsides : Parser.integer? digits' = some j) :
      Derives (.term (.die (.plain (.int i) (.sides (.int j)))))
        [(.integer, digits), (.dice, d), (.integer, digits')]
  | parenthesized {head : Formula} {tail : List (Sign × Formula)} {ps : List Piece}
      {l r : List Char} (h : Derives (.sum head tail) ps) :
      Derives (.term (Parser.sumOf head tail)) ((.leftParen, l) :: ps ++ [(.rightParen, r)])
  | unsigned {f : Formula} {ps : List Piece} (h : Derives (.term f) ps) : Derives (.signed f) ps
  | power {base f : Formula} {ps qs : List Piece} {text : List Char} (hbase : Derives (.term base) ps)
      (h : Derives (.signed f) qs) :
      Derives (.signed (.bare (.arithmetic base [(.pow, f)]))) (ps ++ (.starStar, text) :: qs)
  | minus {f : Formula} {ps : List Piece} {text : List Char} (h : Derives (.signed f) ps) :
      Derives (.signed (Parser.opposite f)) ((.minus, text) :: ps)
  | factor {f : Formula} {ps : List Piece} (h : Derives (.signed f) ps) : Derives (.product f []) ps
  | times {head f : Formula} {tail : List (Operator × Formula)} {ps qs : List Piece} {k : Kind}
      {op : Operator} {text : List Char} (hop : Parser.multiplier? k = some op)
      (hleft : Derives (.product head tail) ps) (hright : Derives (.signed f) qs) :
      Derives (.product head (tail ++ [(op, f)])) (ps ++ (k, text) :: qs)
  | summand {head : Formula} {tail : List (Operator × Formula)} {ps : List Piece}
      (h : Derives (.product head tail) ps) : Derives (.sum (Parser.productOf head tail) []) ps
  | plus {head head' : Formula} {tail : List (Sign × Formula)} {tail' : List (Operator × Formula)}
      {ps qs : List Piece} {k : Kind} {op : Sign} {text : List Char}
      (hop : Parser.sign? k = some op) (hleft : Derives (.sum head tail) ps)
      (hright : Derives (.product head' tail') qs) :
      Derives (.sum head (tail ++ [(op, Parser.productOf head' tail')])) (ps ++ (k, text) :: qs)

section Levels

variable {phrase : Phrase} {ps : List Piece}

theorem Derives.term_of_rank (h : Derives phrase ps) (hrank : 4 ≤ phrase.rank) :
    Derives (.term phrase.formula) ps := by
  cases phrase with
  | term f => exact h
  | _ => simp [Phrase.rank] at hrank

theorem Derives.signed_of_rank (h : Derives phrase ps) (hrank : 2 ≤ phrase.rank) :
    Derives (.signed phrase.formula) ps := by
  cases phrase with
  | term f => exact h.unsigned
  | signed f => exact h
  | _ => simp [Phrase.rank] at hrank

theorem Derives.product_of_rank (h : Derives phrase ps) (hrank : 1 ≤ phrase.rank) :
    ∃ head tail, Derives (.product head tail) ps ∧ Parser.productOf head tail = phrase.formula := by
  cases phrase with
  | sum head tail => simp [Phrase.rank] at hrank
  | product head tail => exact ⟨head, tail, h, rfl⟩
  | _ => exact ⟨_, [], (h.signed_of_rank (by simp [Phrase.rank])).factor, rfl⟩

/-- Every phrase can stand as a sum. -/
theorem Derives.sum (h : Derives phrase ps) :
    ∃ head tail, Derives (.sum head tail) ps ∧ Parser.sumOf head tail = phrase.formula := by
  cases phrase with
  | sum head tail => exact ⟨head, tail, h, rfl⟩
  | _ =>
    obtain ⟨head, tail, hproduct, hformula⟩ := h.product_of_rank (by simp [Phrase.rank])
    exact ⟨_, [], hproduct.summand, hformula⟩

end Levels

/-- Phrases of arithmetic are constructs of the notation. -/
def Phrase.construct : Phrase → Construct
  | term f => .term f
  | signed f => .signed f
  | product head tail => .product head tail
  | sum head tail => .sum head tail

theorem Derives.grammar {phrase : Phrase} {ps : List Piece} (h : Derives phrase ps) :
    Grammar phrase.construct ps := by
  induction h with
  | literal h => exact Grammar.unlabeled (.plain (.integer h))
  | dice hcount hsides =>
    exact Grammar.unlabeled (.dice (.count (.integer hcount)) (.sides (.integer hsides)) .nothing)
  | parenthesized h ih => exact Grammar.unlabeled (.plain (.enclosed (.parens ih)))
  | unsigned h ih => exact .unsigned ih
  | power hbase h ihbase ih => exact .power ihbase ih
  | minus h ih => exact .minus ih
  | factor h ih => exact .factor ih
  | times hop hleft hright ihleft ihright => exact .times hop ihleft ihright
  | summand h ih => exact .summand ih
  | plus hop hleft hright ihleft ihright => exact .added hop ihleft ihright

/-- A text of arithmetic is read as what the grammar has for it. -/
theorem Derives.parse {phrase : Phrase} {ps : List Piece} (h : Derives phrase ps) {text : String}
    (htext : Token.Spells text.toList ps) : Formula.parse text = .ok phrase.formula := by
  obtain ⟨head, tail, hsum, hformula⟩ := h.sum
  rw [← hformula]
  exact hsum.grammar.parse htext

end DiceNotation

import DiceNotation.Grammar.Term

/-!
Formulas as text. From the loosest to the tightest, the operators are `+ -`, then `* / %`, then a
leading sign, then `**`, which groups to the right.
-/

namespace DiceNotation

namespace Parser

open Token (Kind)

/-- A formula under a leading minus sign; a number is negated at once unless it has a label. -/
def opposite (f : Formula) : Formula :=
  match f with
  | ⟨.number n, none⟩ => .number (-n)
  | f => .negated f

/-- A term with any number of leading signs, and the powers that bind tighter than they do. -/
def signed (inner : Parser Formula) : Nat → Parser Formula
  | 0 => unexpected starters
  | fuel + 1 => do
    match ← peek with
    | some .minus => skip; opposite <$> signed inner fuel
    | some .plus => skip; signed inner fuel
    | _ =>
      let base ← term inner
      if (← peek) = some .starStar then
        skip
        let exponent ← signed inner fuel
        return .bare (.arithmetic base [(.pow, exponent)])
      else pure base

def chain {ω : Type} (op? : Kind → Option ω) (operand : Parser Formula) :
    Nat → Parser (List (ω × Formula))
  | 0 => pure []
  | fuel + 1 => do
    match ← choose op? with
    | some op =>
      let f ← operand
      return (op, f) :: (← chain op? operand fuel)
    | none => pure []

def multiplier? : Kind → Option Operator
  | .star => some .mul
  | .slash => some .div
  | .percent => some .rem
  | _ => none

def sign? : Kind → Option Sign
  | .plus => some .plus
  | .minus => some .minus
  | _ => none

def factor (inner : Parser Formula) : Parser Formula := do
  signed inner ((← remaining) + 1)

def product (inner : Parser Formula) : Parser Formula := do
  let head ← factor inner
  match ← chain multiplier? (factor inner) (← remaining) with
  | [] => pure head
  | tail => return .bare (.arithmetic head tail)

/-- A sum with dice among its terms is a sum of dice, and any other is arithmetic. -/
def sumOf (head : Formula) (tail : List (Sign × Formula)) : Formula :=
  if tail.isEmpty then head
  else if head.throwsDice || tail.any fun t => t.2.throwsDice then .bare (.diceSum head tail)
  else .bare (.arithmetic head (tail.map fun t => (t.1.toOperator, t.2)))

def sum (inner : Parser Formula) : Parser Formula := do
  let head ← product inner
  return sumOf head (← chain sign? (product inner) (← remaining))

/-- A formula whose brackets nest less deep than the bound, which no text outgrows that has fewer
tokens. -/
def formula : Nat → Parser Formula
  | 0 => unexpected starters
  | fuel + 1 => sum (formula fuel)

def whole : Parser Formula := do
  let f ← formula ((← remaining) + 1)
  match ← get with
  | [] => pure f
  | t :: _ => fail (.trailing t.kind) (some t)

end Parser

def Formula.parse (text : String) : Except Failure Formula :=
  match Parser.whole.run' (Token.scan text.toList) with
  | .ok f => .ok f
  | .error (cause, token) => .error (Failure.locate (Text.byteLength text.toList) cause token)

end DiceNotation

import DiceNotation.Formula.Roll

/-! Arithmetic over integers and plain dice: its trees, how they are written, and what they come to.
A tree is written with blanks around its operators and with no more parentheses than their ranks ask
for: sums are loosest and products next, both from left to right, then comes the minus sign, and then
powers from right to left, whose exponents may start with a minus sign again. -/

namespace DiceNotation

/-- The integers that have a literal: all from zero on that 64 bits hold. -/
abbrev Literal : Type :=
  Fin 0x8000000000000000

namespace Literal

def value (n : Literal) : Number :=
  .int (Int64.ofInt n.val)

def text (n : Literal) : String :=
  toString n.val

end Literal

inductive Arith where
  | literal (n : Literal)
  | dice (count sides : Literal)
  | neg (operand : Arith)
  | binary (op : Operator) (left right : Arith)

namespace Operator

/-- How tightly an operator binds. The minus sign stands at rank two, and what needs no parentheses
anywhere at rank four. -/
def rank : Operator → Nat
  | .add | .sub => 0
  | .mul | .div | .rem => 1
  | .pow => 3

/-- The rank that a left operand needs to stand without parentheses. -/
def leftRank : Operator → Nat
  | .pow => 4
  | op => op.rank

def rightRank : Operator → Nat
  | .pow => 2
  | op => op.rank + 1

end Operator

namespace Arith

def rank : Arith → Nat
  | literal _ | dice _ _ => 4
  | neg _ => 2
  | binary op _ _ => op.rank

/-- The text of a tree where one of the given rank may stand. Whether a blank follows a minus sign is
left open. -/
def textAt (spaced : Bool) : Arith → Nat → String
  | literal n, _ => n.text
  | dice count sides, _ => count.text ++ "d" ++ sides.text
  | neg a, rank =>
    let text := (if spaced then "- " else "-") ++ a.textAt spaced 2
    if 2 < rank then "(" ++ text ++ ")" else text
  | binary op a b, rank =>
    let text := a.textAt spaced op.leftRank ++ " " ++ op.symbol ++ " " ++
      b.textAt spaced op.rightRank
    if op.rank < rank then "(" ++ text ++ ")" else text

def text (spaced : Bool) (e : Arith) : String :=
  e.textAt spaced 0

/-- What a tree comes to: the left operand before the right one, and a minus sign as a factor.
Nothing is divided by zero. -/
def eval : Arith → Play Number
  | literal n => return n.value
  | dice count sides => do
    let size ← Play.throwCount count.value
    let faces ← Play.sidesOf sides.value
    return Throw.total (← Play.throwMany faces size)
  | neg a => return .int (-1) * (← a.eval)
  | binary op a b => do
    let x ← a.eval
    let y ← b.eval
    match op, y.isZero with
    | .div, true => Play.fault .divisionByZero
    | .rem, true => Play.fault .remainderByZero
    | op, _ => return op.apply x y

example : (binary .mul (binary .sub (literal 1) (literal 2)) (neg (binary .pow (dice 2 6)
    (neg (literal 3))))).text false = "(1 - 2) * -2d6 ** -3" := by
  decide +kernel

end Arith

end DiceNotation

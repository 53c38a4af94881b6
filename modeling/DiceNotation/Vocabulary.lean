import DiceNotation.Number.Basic

/-!
The small words of the notation: comparators, directions, orders, modes, operators and functions,
each with the name it is written by.
-/

namespace DiceNotation

/-- A finite set of words, each with a name of its own. -/
class Word (α : Type) where
  all : List α
  name : α → String
  find_name : ∀ w, (all.find? fun v => name v == name w) = some w

def Word.ofName? {α : Type} [Word α] (s : String) : Option α :=
  (Word.all : List α).find? fun w => Word.name w == s

@[simp] theorem Word.ofName?_name {α : Type} [Word α] (w : α) :
    Word.ofName? (Word.name w) = some w :=
  Word.find_name w

inductive Relation where
  | atLeast
  | atMost
  | equal
  deriving DecidableEq

namespace Relation

def holds : Relation → Number → Number → Bool
  | .atLeast, target, value => target.atMost value
  | .atMost, target, value => value.atMost target
  | .equal, target, value => value.same target

def symbol : Relation → String
  | .atLeast => ">="
  | .atMost => "<="
  | .equal => "="

end Relation

instance : Word Relation where
  all := [.atLeast, .atMost, .equal]
  name := Relation.symbol
  find_name w := by cases w <;> rfl

inductive Extreme where
  | high
  | low
  deriving DecidableEq

def Extreme.symbol : Extreme → String
  | .high => "h"
  | .low => "l"

instance : Word Extreme where
  all := [.high, .low]
  name
    | .high => "high"
    | .low => "low"
  find_name w := by cases w <;> rfl

inductive Sorting where
  | ascending
  | descending
  deriving DecidableEq

instance : Word Sorting where
  all := [.ascending, .descending]
  name
    | .ascending => "ascending"
    | .descending => "descending"
  find_name w := by cases w <;> rfl

/-- What becomes of the bonus dice of an exploding one. -/
inductive Explosion where
  | explode
  | compound
  | penetrate
  deriving DecidableEq

instance : Word Explosion where
  all := [.explode, .compound, .penetrate]
  name
    | .explode => "explode"
    | .compound => "compound"
    | .penetrate => "penetrate"
  find_name w := by cases w <;> rfl

/-- The operators that join dice. -/
inductive Sign where
  | plus
  | minus
  deriving DecidableEq

def Sign.symbol : Sign → String
  | .plus => "+"
  | .minus => "-"

def Sign.apply : Sign → Number → Number → Number
  | .plus, a, b => a + b
  | .minus, a, b => a - b

instance : Word Sign where
  all := [.plus, .minus]
  name := Sign.symbol
  find_name w := by cases w <;> rfl

inductive Operator where
  | add
  | sub
  | mul
  | div
  | rem
  | pow
  deriving DecidableEq

def Operator.symbol : Operator → String
  | .add => "+"
  | .sub => "-"
  | .mul => "*"
  | .div => "/"
  | .rem => "%"
  | .pow => "**"

def Operator.apply : Operator → Number → Number → Number
  | .add, a, b => a + b
  | .sub, a, b => a - b
  | .mul, a, b => a * b
  | .div, a, b => a.div b
  | .rem, a, b => a.rem b
  | .pow, a, b => a.pow b

instance : Word Operator where
  all := [.add, .sub, .mul, .div, .rem, .pow]
  name := Operator.symbol
  find_name w := by cases w <;> rfl

def Sign.toOperator : Sign → Operator
  | .plus => .add
  | .minus => .sub

inductive NumericFunction where
  | floor
  | ceil
  | round
  | abs
  deriving DecidableEq

def NumericFunction.symbol : NumericFunction → String
  | .floor => "floor"
  | .ceil => "ceil"
  | .round => "round"
  | .abs => "abs"

def NumericFunction.apply : NumericFunction → Number → Number
  | .floor => Number.floor
  | .ceil => Number.ceil
  | .round => Number.round
  | .abs => Number.abs

instance : Word NumericFunction where
  all := [.floor, .ceil, .round, .abs]
  name := NumericFunction.symbol
  find_name w := by cases w <;> rfl

end DiceNotation

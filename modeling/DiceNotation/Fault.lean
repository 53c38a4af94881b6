import DiceNotation.Number.Basic

/-!
Why a formula has no outcome.
-/

namespace DiceNotation

inductive Fault where
  | unknownFormula
  | unknownModifier (modifier scope : String)
  | tooManyDice (count : Number) (most : Nat)
  | endless (modifier : String)
  | unresolved (name : String)
  | noFaces (faces : Number)
  | divisionByZero
  | remainderByZero
  /-- A throw was thrown again more often than the table has patience for. -/
  | unsettled (modifier : String)

def Fault.message : Fault → String
  | .unknownFormula => "unsupported node type"
  | .unknownModifier modifier scope =>
    "the " ++ modifier ++ " modifier is not supported on a " ++ scope
  | .tooManyDice count most =>
    "too many dice rolled: " ++ count.text ++ " requested, at most " ++ toString most ++ " allowed"
  | .endless modifier =>
    "the " ++ modifier ++ " target matches every face, so the roll would never end"
  | .unresolved name => "no transform is available for replacement '" ++ name ++ "'"
  | .noFaces faces => "a die must have at least one face, got " ++ faces.text
  | .divisionByZero => "cannot divide by zero"
  | .remainderByZero => "cannot take modulus by zero"
  | .unsettled modifier => "the " ++ modifier ++ " did not come to an end"

end DiceNotation

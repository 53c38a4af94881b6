import DiceNotation.Text.Quoted
import DiceNotation.Token.Scan

/-!
Why a text is not a formula: the first token that cannot be, and what could have stood there.
-/

namespace DiceNotation

namespace Failure

open Token (Kind)

inductive Cause where
  | unexpected (found : Option Kind) (expected : List Kind)
  | unreadable (expected : List Kind)
  | trailing (found : Kind)
  | outOfRange
  deriving DecidableEq

def lastChoices : List Kind → String
  | [] => ""
  | [k] => "or " ++ k.name
  | k :: rest => k.name ++ ", " ++ lastChoices rest

/-- Kinds as a list of choices; two of them need no comma. -/
def choices : List Kind → String
  | [] => ""
  | [k] => k.name
  | [k, l] => k.name ++ " or " ++ l.name
  | ks => lastChoices ks

def Cause.message : Cause → String
  | .unexpected (some found) expected =>
    "unexpected token: found " ++ found.name ++ ", expected " ++ choices expected
  | .unexpected none expected => "unexpected end of input, expected " ++ choices expected
  | .unreadable expected => "expected " ++ choices expected
  | .trailing found => "unexpected " ++ found.name ++ " after the end of the roll"
  | .outOfRange => "number is out of range"

end Failure

structure Failure where
  cause : Failure.Cause
  start : Nat
  stop : Nat
  slice : String
  deriving DecidableEq

namespace Failure

def message (f : Failure) : String :=
  "error at position " ++ toString f.start ++ " (" ++ Text.quoted f.slice ++ "): "
    ++ f.cause.message

/-- The failure of a text of the given length, which is at the end of it when there is no token to
blame. -/
def locate (length : Nat) (cause : Cause) : Option Token → Failure
  | some t => ⟨cause, t.start, t.stop, String.ofList t.text⟩
  | none => ⟨cause, length, length, ""⟩

end Failure

end DiceNotation

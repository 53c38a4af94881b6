import DiceNotation.Formula.Basic
import DiceNotation.Grammar.Failure

/-!
Parsers over tokens: a token can be looked at, taken, or given a meaning, and a number can be read.
-/

namespace DiceNotation

open Token (Kind)

/-- Reads tokens from the front of a list; a failure comes with the token that it is about, or none
at the end of the text. -/
abbrev Parser := StateT (List Token) (Except (Failure.Cause × Option Token))

namespace Parser

def peek : Parser (Option Kind) := do
  return (← get).head?.map Token.kind

def skip : Parser Unit :=
  modify List.tail

def remaining : Parser Nat := do
  return (← get).length

def fail {α : Type} (cause : Failure.Cause) (token : Option Token) : Parser α :=
  throw (cause, token)

/-- Fails at the next token, where one of the given kinds was due. -/
def unexpected {α : Type} (expected : List Kind) : Parser α := do
  match ← get with
  | [] => fail (.unexpected none expected) none
  | t :: _ =>
    if t.kind = .error then fail (.unreadable expected) (some t)
    else fail (.unexpected (some t.kind) expected) (some t)

def take (k : Kind) : Parser Token := do
  match ← get with
  | t :: rest => if t.kind = k then set rest; pure t else unexpected [k]
  | [] => unexpected [k]

/-- Takes the next token if `f` gives a meaning to its kind. -/
def choose {α : Type} (f : Kind → Option α) : Parser (Option α) := do
  match ← get with
  | t :: rest =>
    match f t.kind with
    | some a => set rest; pure (some a)
    | none => pure none
  | [] => pure none

def isLiteral (k : Kind) : Bool :=
  k == .integer || k == .decimal

def integer? (digits : List Char) : Option Int64 :=
  let n := Decimal.natOfDigits digits
  if n < 0x8000000000000000 then some (Int64.ofInt n) else none

def decimal (text : List Char) : Float :=
  (Decimal.ofText text).toFloat

def literal : Parser Formula := do
  match ← get with
  | t :: rest =>
    if t.kind = .integer then
      match integer? t.text with
      | some i => set rest; pure (.int i)
      | none => fail .outOfRange (some t)
    else if t.kind = .decimal then
      set rest
      pure (.number (.float (decimal t.text)))
    else unexpected [.integer, .decimal]
  | [] => unexpected [.integer, .decimal]

end Parser

end DiceNotation

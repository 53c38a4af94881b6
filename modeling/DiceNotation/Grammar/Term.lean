import DiceNotation.Grammar.Modifier
import DiceNotation.Text.Blank

/-!
Terms: numbers, dice, groups, calls and formulas in brackets, with the labels after them. What
stands between brackets of any kind is read by the parser `inner`.
-/

namespace DiceNotation.Parser

open Token (Kind)

def faces (inner : Parser Formula) : Parser (Faces Formula) := do
  match ← peek with
  | some .integer | some .decimal => .sides <$> literal
  | some .percent => skip; pure (.sides (.int 100))
  | some .fate => skip; pure .fate
  | some .leftParen => .sides <$> parenthesized inner
  | _ => unexpected [.integer, .percent, .fate, .leftParen]

def dice (inner : Parser Formula) (count : Formula) : Parser Formula := do
  let _ ← take .dice
  let die := Die.plain count (← faces inner)
  return .die (← dieRest inner (← remaining) die)

/-- Dice, if a `d` follows their count, and otherwise the formula alone. -/
def countOrValue (inner : Parser Formula) (f : Formula) : Parser Formula := do
  if (← peek) = some .dice then dice inner f else pure f

def members (inner : Parser Formula) : Nat → Parser (List Formula)
  | 0 => pure []
  | fuel + 1 => do
    if (← peek) = some .comma then
      skip
      let f ← inner
      return f :: (← members inner fuel)
    else pure []

def group (inner : Parser Formula) : Parser Formula := do
  let _ ← take .leftBrace
  let first ← inner
  let others ← members inner (← remaining)
  let _ ← take .rightBrace
  return .bare (.group first others (← groupRest inner (← remaining)))

def inline (inner : Parser Formula) : Parser Formula := do
  let _ ← take .inlineOpen
  let f ← inner
  let _ ← take .inlineClose
  return .bare (.inline f)

def function? : Kind → Option NumericFunction
  | .floor => some .floor
  | .ceil => some .ceil
  | .round => some .round
  | .abs => some .abs
  | _ => none

/-- What a formula may start with, as failures have it. -/
def starters : List Kind := [.integer, .decimal, .dice, .leftParen, .leftBrace, .inlineOpen]

def unlabeled (inner : Parser Formula) : Parser Formula := do
  match ← peek with
  | some .integer | some .decimal => countOrValue inner (← literal)
  | some .dice => dice inner (.int 1)
  | some .leftParen => countOrValue inner (← parenthesized inner)
  | some .leftBrace => group inner
  | some .inlineOpen => inline inner
  | some .replacement =>
    let t ← take .replacement
    return .bare (.replacement (String.ofList (t.text.drop 1)) (← parenthesized inner))
  | _ =>
    match ← choose function? with
    | some f => return .bare (.function f (← parenthesized inner))
    | none => unexpected starters

def labelText (text : List Char) : String :=
  String.ofList (Text.trimChars (text.drop 1).dropLast)

def addLabel (f : Formula) (label : String) : Formula :=
  { f with label := some (match f.label with
    | some before => before ++ " " ++ label
    | none => label) }

/-- The labels after a term, which join into one. -/
def labels : Nat → Formula → Parser Formula
  | 0, f => pure f
  | fuel + 1, f => do
    match ← get with
    | t :: rest =>
      if t.kind = .label then
        set rest
        labels fuel (addLabel f (labelText t.text))
      else pure f
    | [] => pure f

def term (inner : Parser Formula) : Parser Formula := do
  let f ← unlabeled inner
  labels (← remaining) f

end DiceNotation.Parser

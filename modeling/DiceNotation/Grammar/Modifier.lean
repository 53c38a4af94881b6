import DiceNotation.Grammar.Basic

/-!
What follows a die or a group: modifiers, their values and conditions. What stands in parentheses is
read by the parser `inner`.
-/

namespace DiceNotation.Parser

open Token (Kind)

def parenthesized (inner : Parser Formula) : Parser Formula := do
  let _ ← take .leftParen
  let f ← inner
  let _ ← take .rightParen
  pure f

def value? (inner : Parser Formula) : Parser (Option Formula) := do
  match ← peek with
  | some .integer | some .decimal => some <$> literal
  | some .leftParen => some <$> parenthesized inner
  | _ => pure none

def negate (f : Formula) : Formula :=
  match f.shape with
  | .number n => .number (-n)
  | _ => .negated f

def signedValue (inner : Parser Formula) : Nat → Parser Formula
  | 0 => unexpected [.integer, .decimal, .leftParen, .minus]
  | fuel + 1 => do
    if (← peek) = some .minus then
      skip
      negate <$> signedValue inner fuel
    else
      match ← value? inner with
      | some f => pure f
      | none => unexpected [.integer, .decimal, .leftParen, .minus]

def relation? : Kind → Option Relation
  | .greater | .greaterEqual => some .atLeast
  | .less | .lessEqual => some .atMost
  | .equal => some .equal
  | _ => none

/-- A value, and before it a comparator that may be left out for equality. -/
def target (inner : Parser Formula) : Parser (Target Formula) := do
  let relation := (← choose relation?).getD .equal
  return ⟨relation, ← signedValue inner ((← remaining) + 1)⟩

def startsTarget (k : Kind) : Bool :=
  k.isComparator || isLiteral k || k == .leftParen

def target? (inner : Parser Formula) : Parser (Option (Target Formula)) := do
  if (← peek).any startsTarget then some <$> target inner else pure none

def selection? : Kind → Option (Formula → Modifier Formula)
  | .keep | .keepHighest => some (.keep .high)
  | .keepLowest => some (.keep .low)
  | .dropHighest => some (.drop .high)
  | .dice | .dropLowest => some (.drop .low)
  | _ => none

def explosion? : Kind → Option Explosion
  | .explode => some .explode
  | .compound => some .compound
  | .penetrate => some .penetrate
  | _ => none

def reroll? : Kind → Option Bool
  | .reroll => some false
  | .rerollOnce => some true
  | _ => none

def critical? : Kind → Option (Target Formula → Modifier Formula)
  | .critSuccess => some .critical
  | .critFailure => some .criticalFailure
  | _ => none

def failure? : Kind → Option Unit
  | .failure => some ()
  | _ => none

def sorting? : Kind → Option Sorting
  | .sort | .sortAscending => some .ascending
  | .sortDescending => some .descending
  | _ => none

def matching? : Kind → Option Bool
  | .same => some false
  | .sameCount => some true
  | _ => none

/-- A modifier that keeps or drops, by one entry unless a count follows. -/
def selecting (inner : Parser Formula) : Parser (Option (Modifier Formula)) := do
  match ← choose selection? with
  | some make => return some (make ((← value? inner).getD (.int 1)))
  | none => pure none

/-- A condition that counts successes, or failures after an `f`. -/
def counting (inner : Parser Formula) : Parser (Option (Modifier Formula)) := do
  if (← peek).any Kind.isComparator then return some (.success (← target inner))
  match ← choose failure? with
  | some _ => return some (.failure (← target inner))
  | none => pure none

def throwing (inner : Parser Formula) : Parser (Option (Modifier Formula)) := do
  if let some mode ← choose explosion? then return some (.explode mode (← target? inner))
  if let some once ← choose reroll? then return some (.reroll once (← target? inner))
  if let some make ← choose critical? then return some (make (← target inner))
  return none

/-- What is looked for in matching: pairs or better unless a count follows, among all faces unless
a condition does. -/
def matching (inner : Parser Formula) (counted : Bool) : Parser (Matching Formula) := do
  let least := (← value? inner).getD (.int 2)
  if (← peek).any Kind.isComparator then return ⟨least, counted, some (← target inner)⟩
  else return ⟨least, counted, none⟩

/-- What follows the faces of a die, in any order; of sorts and of matchings the last one counts. -/
def dieRest (inner : Parser Formula) : Nat → Die Formula → Parser (Die Formula)
  | 0, die => pure die
  | fuel + 1, die => do
    if let some m ← selecting inner then
      return ← dieRest inner fuel { die with mods := die.mods ++ [m] }
    if let some m ← throwing inner then
      return ← dieRest inner fuel { die with mods := die.mods ++ [m] }
    if let some m ← counting inner then
      return ← dieRest inner fuel { die with targets := die.targets ++ [m] }
    if let some order ← choose sorting? then
      return ← dieRest inner fuel { die with sorting := some order }
    if let some counted ← choose matching? then
      let m ← matching inner counted
      return ← dieRest inner fuel { die with matching := some m }
    return die

def groupRest (inner : Parser Formula) : Nat → Parser (List (Modifier Formula))
  | 0 => pure []
  | fuel + 1 => do
    if let some m ← selecting inner then return m :: (← groupRest inner fuel)
    if let some m ← counting inner then return m :: (← groupRest inner fuel)
    return []

end DiceNotation.Parser

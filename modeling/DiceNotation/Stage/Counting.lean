import DiceNotation.Stage.Entry

/-!
Counting successes and failures, and tagging throws as critical.
-/

namespace DiceNotation.Stage

def success (condition : Target Number) (e : Entry) : Entry :=
  if e.valid && condition.accepts e.shown then
    e.mapStatus fun s => { s with successes := s.successes + 1, success := some true }
  else e

def failure (condition : Target Number) (e : Entry) : Entry :=
  if e.valid && condition.accepts e.shown then
    e.mapStatus fun s => { s with failures := s.failures + 1 }
  else e

def judge (s : Status) : Status :=
  if s.valid then { s with success := some (decide (s.failures < s.successes)) } else s

def totals : List Status → Nat × Nat
  | [] => (0, 0)
  | s :: ss =>
    let (successes, failures) := totals ss
    if s.valid then (s.successes + successes, s.failures + failures) else (successes, failures)

/-- A throw is worth its successes less its failures once a die counts them. -/
def score (t : Throw) : Throw :=
  let value := t.status.score
  { t with status := { t.status with value := value, success := some (Number.zero.less value) } }

/-- Tags a throw that meets the condition, and takes the same tag from one that does not. Fate dice
and successes keep the tag that they have. -/
def critical (tag : Crit) (condition : Target Number) (t : Throw) : Throw :=
  if t.status.success = some true then t
  else match t.faces with
    | .fate => t
    | .sides _ =>
      if condition.accepts (.int t.face) then { t with critical := some tag }
      else if t.critical = some tag then { t with critical := none }
      else t

end DiceNotation.Stage

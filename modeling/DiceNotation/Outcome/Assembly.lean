import DiceNotation.Outcome.Pool
import DiceNotation.Stage.Counting
import DiceNotation.Stage.Selection
import DiceNotation.Stage.Alike

/-!
Putting outcomes together from parts that have been rolled: a die from its throws, a group from its
members.
-/

namespace DiceNotation

namespace Status

def ofCounts (value : Number) (counts : Nat × Nat) : Status :=
  { ofValue value with
    successes := counts.1
    failures := counts.2
    success := some (Number.zero.less value) }

def balance (counts : Nat × Nat) : Number :=
  .ofNat counts.1 - .ofNat counts.2

end Status

namespace Stage

def onThrows (stage : List Entry → List Entry) (ts : List Throw) : List Throw :=
  (Throw.refill ts (Entry.statuses (stage (Entry.ofThrows ts)))).1

def ofModifier? : Modifier Number → Option (List Entry → List Entry)
  | .keep extreme count => some (keep extreme count)
  | .drop extreme count => some (drop extreme count)
  | .success condition => some (List.map (success condition))
  | .failure condition => some (List.map (failure condition))
  | _ => none

end Stage

namespace Outcome

/-- The value of a die: the number of faces matched if it asks for that, or its successes less its
failures if it counts them, or the sum of its valid throws. -/
def dieValue (counts : Option (Nat × Nat)) (matched : Option Nat) (throws : List Throw) : Number :=
  match matched, counts with
  | some n, _ => .ofNat n
  | none, some counts => Status.balance counts
  | none, none => Throw.total throws

def ofDie (count : Outcome) (faces : Option Outcome) (hasTargets : Bool)
    (matching : Option (Matching Number)) (sorting : Option Sorting) (throws : List Throw) :
    Outcome :=
  let scored := if hasTargets then throws.map Stage.score else throws
  let counts := if hasTargets then some (Stage.totals (scored.map Throw.status)) else none
  let marked := match matching with
    | some m => Stage.withMatches m scored
    | none => scored
  let matched := match matching with
    | some m => if m.counted then some (Stage.matchCount m scored) else none
    | none => none
  let sorted := match sorting with
    | some order => Stage.sortThrows order marked
    | none => marked
  let value := dieValue counts matched sorted
  let status := match counts with
    | some counts => Status.ofCounts value counts
    | none => Status.ofValue value
  ⟨status, .die count faces sorted, none⟩

/-- The one member of a group whose pool takes the place of the members. -/
def pooled? : List Outcome → Option Outcome
  | [o] => if o.isDice then some o else none
  | _ => none

def entries (members : List Outcome) : List Status :=
  match pooled? members with
  | some o => o.pool
  | none => members.map status

def withStatuses : List Outcome → List Status → List Outcome
  | o :: os, s :: ss => { o with status := s } :: withStatuses os ss
  | os, _ => os

def withEntries (members : List Outcome) (ss : List Status) : List Outcome :=
  match pooled? members with
  | some o => [(o.refill ss).1.resum]
  | none => withStatuses members ss

def ofMembers (members : List Outcome) : Outcome :=
  bare (.group members) (total members)

/-- A group from its members and from what its modifiers left of their statuses. -/
def ofGroup (members : List Outcome) (hasTargets : Bool) (ss : List Status) : Outcome :=
  if hasTargets then
    let counts := Stage.totals ss
    let members := withEntries members (ss.map Stage.judge)
    ⟨Status.ofCounts (Status.balance counts) counts, .group members, none⟩
  else
    ofMembers (withEntries members ss)

end Outcome

end DiceNotation

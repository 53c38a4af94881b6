import DiceNotation.Stage.Entry

/-!
Keeping and dropping the highest or the lowest entries. Entries that are no longer valid are never
counted and never dropped again.
-/

namespace DiceNotation.Stage

def boundedCount (count : Number) (size : Nat) : Nat :=
  min count.floor.toInt64.toInt.toNat size

def dropFirst : Nat → List Entry → List Entry
  | 0, es => es
  | _, [] => []
  | n + 1, e :: es =>
    if e.valid then e.mapStatus Status.drop :: dropFirst n es else e :: dropFirst (n + 1) es

theorem dropFirst_nil (n : Nat) : dropFirst n [] = [] := by
  cases n <;> rfl

def sortUp : List Entry → List Entry :=
  stableSort fun a b => a.shown.less b.shown

def sortDown : List Entry → List Entry :=
  stableSort fun a b => b.shown.less a.shown

/-- Back to the order that the statuses tell, which entries of several dice may share. -/
def inOrder : List Entry → List Entry :=
  stableSort fun a b => decide (a.status.order < b.status.order)

/-- Entries that an earlier stage dropped go to the front. -/
def invalidFirst : List Entry → List Entry :=
  stableSort fun a b => !a.valid && b.valid

def keep (extreme : Extreme) (count : Number) (es : List Entry) : List Entry :=
  let sorted := match extreme with
    | .high => sortUp es
    | .low => sortDown es
  inOrder (dropFirst (es.countP Entry.valid - boundedCount count es.length) (invalidFirst sorted))

def drop (extreme : Extreme) (count : Number) (es : List Entry) : List Entry :=
  let sorted := match extreme with
    | .high => sortDown es
    | .low => sortUp es
  inOrder (dropFirst (boundedCount count es.length) sorted)

end DiceNotation.Stage

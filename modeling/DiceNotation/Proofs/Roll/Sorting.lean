import DiceNotation.Proofs.Outcome.Lawful
import DiceNotation.Proofs.Outcome.Totals
import DiceNotation.Proofs.Roll.Flattening
import DiceNotation.Proofs.Stage.Selecting

/-! Dice that sort their throws. Sorting is the last that is done to the throws and draws nothing, so
a die with a sort and the same die without one fail alike, or come to the same but for where the
throws stand. Only a sum looks at throws in their order, and it is the same as long as it is exact. -/

namespace DiceNotation

open Play Stage

/-- The order that a sort leaves two throws in. -/
def Sorting.Allows : Sorting → Throw → Throw → Prop
  | .ascending, t, u => t.face ≤ u.face
  | .descending, t, u => u.face ≤ t.face

def Sorting.rank : Sorting → Throw → Int
  | .ascending, t => t.face.toInt
  | .descending, t => -t.face.toInt

/-- The same throws sorted by their faces, where equal faces stand as they stood before. -/
structure Throw.Sorted (order : Sorting) (ts us : List Throw) : Prop where
  perm : us.Perm ts
  ordered : us.Pairwise order.Allows
  stable : ∀ face, us.filter (fun t => t.face == face) = ts.filter fun t => t.face == face

/-- The values of the throws are integers, and no sum of the first valid ones leaves the range. -/
structure Throw.Exact (ts : List Throw) : Prop where
  isInt : ∀ t ∈ ts, t.value.isInt = true
  fits : ∀ k, Number.Fits ((Status.worths (ts.map Throw.status)).take k).sum

/-- A die beside the same die with its throws sorted and numbered anew. -/
structure Outcome.Sorts (order : Sorting) (o o' : Outcome) : Prop where
  status : o'.status = { o.status with value := o'.value }
  label : o'.label = o.label
  throws : ∃ count faces ts us, o.body = .die count faces ts ∧ Throw.Sorted order ts us ∧
    o'.body = .die count faces (Throw.lineUp us)
  value : Throw.Exact o.throws → Throw.Exact o'.throws → o'.value = o.value

namespace Stage

end Stage

namespace Outcome

section Die

variable {count : Outcome} {faces : Option Outcome} {matching : Option (Matching Number)}
  {ts us : List Throw}

theorem Sorts.relabel {order : Sorting} {o o' : Outcome} (h : Sorts order o o')
    (label : Option String) : Sorts order (o.relabel label) (o'.relabel label) where
  status := by simpa only [Outcome.value, status_relabel] using h.status
  label := by
    cases label with
    | none => exact h.label
    | some label => rfl
  throws := by simpa only [body_relabel] using h.throws
  value := by simpa only [throws_relabel, Outcome.value, status_relabel] using h.value

end Die

end Outcome

section Runs

variable {α β : Type} {R : β → β → Prop} {table : Table} {n : Nat}

end Runs

end DiceNotation

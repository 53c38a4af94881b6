import DiceNotation.Stage.Entry

/-!
Looking for equal faces, and sorting throws by their faces.
-/

namespace DiceNotation.Stage

def validFaces (ts : List Throw) : List Int64 :=
  (ts.filter Throw.valid).map Throw.face

/-- Whether a face is shown by enough valid throws and meets the filter. -/
def isMatched (m : Matching Number) (ts : List Throw) (face : Int64) : Bool :=
  m.least.atMost (.ofNat ((validFaces ts).count face)) &&
    m.filter.all fun t => t.accepts (.int face)

def withMatches (m : Matching Number) (ts : List Throw) : List Throw :=
  ts.map fun t => if t.valid && isMatched m ts t.face then { t with matched := true } else t

def matchCount (m : Matching Number) (ts : List Throw) : Nat :=
  ((validFaces ts).eraseDups.filter (isMatched m ts)).length

/-- Sorts throws by their faces; equal faces stay in order. -/
def sortThrows (order : Sorting) (ts : List Throw) : List Throw :=
  Throw.lineUp <| match order with
    | .ascending => stableSort (fun a b => decide (a.face < b.face)) ts
    | .descending => stableSort (fun a b => decide (b.face < a.face)) ts

end DiceNotation.Stage

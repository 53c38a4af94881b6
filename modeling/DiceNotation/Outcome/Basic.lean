import DiceNotation.Faces
import DiceNotation.Vocabulary

/-!
The outcome of a formula: every part of it with the value that it came to, down to the single throws
of a die. A throw that was dropped or thrown again stays in its place and is no longer valid.
-/

namespace DiceNotation

/-- What a part of an outcome carries, whatever it is a part of. -/
structure Status where
  value : Number
  valid : Bool
  dropped : Bool
  successes : Nat
  failures : Nat
  success : Option Bool
  order : Nat

namespace Status

def ofValue (value : Number) : Status :=
  ⟨value, true, false, 0, 0, none, 0⟩

def drop (s : Status) : Status :=
  { s with valid := false, dropped := true }

def score (s : Status) : Number :=
  .ofNat s.successes - .ofNat s.failures

end Status

inductive Crit where
  | success
  | failure
  deriving DecidableEq

instance : Word Crit where
  all := [.success, .failure]
  name
    | .success => "success"
    | .failure => "failure"
  find_name w := by cases w <;> rfl

structure Throw where
  status : Status
  faces : Faces Int64
  face : Int64
  critical : Option Crit
  matched : Bool
  rerolled : Bool
  exploded : Bool

namespace Throw

/-- The tag of a throw as it falls: the highest face before the lowest, and none on a fate die. -/
def criticalOf : Faces Int64 → Int64 → Option Crit
  | .sides count, face =>
    if face = count then some .success else if face = 1 then some .failure else none
  | .fate, _ => none

def fresh (faces : Faces Int64) (face : Int64) (order : Nat) : Throw where
  status := { Status.ofValue (.int face) with order := order }
  faces := faces
  face := face
  critical := criticalOf faces face
  matched := false
  rerolled := false
  exploded := false

def valid (t : Throw) : Bool :=
  t.status.valid

def value (t : Throw) : Number :=
  t.status.value

def place (t : Throw) (order : Nat) : Throw :=
  { t with status := { t.status with order := order } }

/-- Throws with their order set to where they stand. -/
def lineUp (ts : List Throw) : List Throw :=
  ts.mapIdx fun i t => t.place i

@[simp] theorem length_lineUp (ts : List Throw) : (lineUp ts).length = ts.length := by
  simp [lineUp]

def total (ts : List Throw) : Number :=
  Number.sum ((ts.filter valid).map value)

end Throw

mutual
structure Outcome where
  status : Status
  body : Body
  label : Option String

inductive Body where
  | number
  | die (count : Outcome) (faces : Option Outcome) (throws : List Throw)
  | diceSum (head : Outcome) (tail : List (Sign × Outcome))
  | arithmetic (head : Outcome) (tail : List (Operator × Outcome))
  | group (members : List Outcome)
  | function (function : NumericFunction) (argument : Outcome)
  | replacement (name : String) (argument : Outcome)
end

namespace Outcome

def bare (body : Body) (value : Number) : Outcome :=
  ⟨.ofValue value, body, none⟩

instance : Inhabited Outcome := ⟨bare .number .zero⟩

def number (n : Number) : Outcome :=
  bare .number n

def value (o : Outcome) : Number :=
  o.status.value

def valid (o : Outcome) : Bool :=
  o.status.valid

def withValue (o : Outcome) (value : Number) : Outcome :=
  { o with status := { o.status with value := value } }

def place (o : Outcome) (order : Nat) : Outcome :=
  { o with status := { o.status with order := order } }

/-- A label that is given takes the place of the one before it. -/
def relabel (o : Outcome) : Option String → Outcome
  | some label => { o with label := some label }
  | none => o

def total (os : List Outcome) : Number :=
  Number.sum ((os.filter valid).map value)

/-- Whether throws can be pooled from the outcome. -/
def isDice (o : Outcome) : Bool :=
  match o.body with
  | .die .. | .diceSum .. => true
  | _ => false

end Outcome

end DiceNotation

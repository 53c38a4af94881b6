import DiceNotation.Chance.Face
import DiceNotation.Fault
import DiceNotation.Stage.Entry

/-!
Throwing dice again: bonus dice for throws that meet a condition, and new throws in place of them. A
condition that both the lowest and the highest face meet is refused before anything is drawn.
-/

namespace DiceNotation.Stage

def isEndless (faces : Faces Int64) (condition : Target Number) : Bool :=
  condition.accepts (.int faces.lowest) && condition.accepts (.int faces.highest)

def bonusLimit : Nat := 1000

section Bonus

variable (samples : Samples) (faces : Faces Int64) (condition : Target Number)

def bonuses : Nat → Nat → Int64 → List Int64
  | 0, _, _ => []
  | fuel + 1, cursor, latest =>
    if condition.accepts (.int latest) then
      let face := faces.ofSample (samples cursor)
      face :: bonuses fuel (cursor + 1) face
    else []

theorem length_bonuses_le (fuel cursor : Nat) (latest : Int64) :
    (bonuses samples faces condition fuel cursor latest).length ≤ fuel := by
  induction fuel generalizing cursor latest with
  | zero => simp [bonuses]
  | succ fuel ih =>
    by_cases h : condition.accepts (.int latest)
    · simpa [bonuses, h] using ih _ _
    · simp [bonuses, h]

/-- A bonus die; one that penetrates is worth one less. -/
def bonusThrow (mode : Explosion) (face : Int64) : Throw :=
  let t := Throw.fresh faces face 0
  match mode with
  | .penetrate => { t with status := { t.status with value := t.value - .int 1 } }
  | _ => t

/-- A throw with its bonus dice after it, each exploded but the last. -/
def withBonuses (mode : Explosion) (t : Throw) : List Int64 → List Throw
  | [] => [t]
  | face :: rest =>
    { t with exploded := true } :: withBonuses mode (bonusThrow faces mode face) rest

def compounded (t : Throw) (bonus : List Int64) : Throw :=
  bonus.foldl (fun t face => { t with
    status := { t.status with value := t.value + .int face }
    face := t.face + face
    exploded := true }) t

def explodeBlock (mode : Explosion) (t : Throw) (bonus : List Int64) : List Throw :=
  match mode with
  | .compound => [compounded t bonus]
  | mode => withBonuses faces mode t bonus

/-- The bonus faces of one throw; those that are not valid have none. -/
def bonusesOf (cursor : Nat) (t : Throw) : List Int64 :=
  if t.valid then bonuses samples faces condition bonusLimit cursor t.face else []

def explodeFrom (mode : Explosion) : Nat → List Throw → List Throw × Nat
  | cursor, [] => ([], cursor)
  | cursor, t :: ts =>
    let bonus := bonusesOf samples faces condition cursor t
    let (rest, stop) := explodeFrom mode (cursor + bonus.length) ts
    (explodeBlock faces mode t bonus ++ rest, stop)

end Bonus

/-- Bonus dice for valid throws that meet the condition, by default the highest face. -/
def explode (samples : Samples) (mode : Explosion) (condition : Option (Target Number))
    (modifier : String) (cursor : Nat) : List Throw → Except Fault (List Throw) × Nat
  | [] => (.ok [], cursor)
  | t :: ts =>
    let condition := condition.getD ⟨.equal, .int t.faces.highest⟩
    if isEndless t.faces condition then (.error (.endless modifier), cursor)
    else
      let (ts, stop) := explodeFrom samples t.faces condition mode cursor (t :: ts)
      (.ok (Throw.lineUp ts), stop)

theorem explode_error {samples : Samples} {mode : Explosion} {condition : Option (Target Number)}
    {modifier : String} {cursor stop : Nat} {ts : List Throw} {e : Fault}
    (h : explode samples mode condition modifier cursor ts = (.error e, stop)) :
    e = .endless modifier ∧ stop = cursor := by
  cases ts with
  | nil => cases h
  | cons t ts =>
    simp only [explode] at h
    split at h
    · cases h
      exact ⟨rfl, rfl⟩
    · cases h

end DiceNotation.Stage

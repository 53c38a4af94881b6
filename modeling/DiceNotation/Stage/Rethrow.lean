import DiceNotation.Stage.Bonus

/-!
Throwing again what meets a condition. The throw that is replaced stays in front of its replacement
and is no longer valid.
-/

namespace DiceNotation.Stage

section Chase

variable (samples : Samples) (condition : Target Number)

/-- Faces drawn from `cursor` on, up to the first that fails the condition; there is no answer once
patience runs out. -/
def chase (faces : Faces Int64) : Nat → Nat → Option (List Int64)
  | 0, _ => none
  | patience + 1, cursor =>
    let face := faces.ofSample (samples cursor)
    if condition.accepts (.int face) then
      (chase faces patience (cursor + 1)).map (face :: ·)
    else some [face]

def replacements (patience : Nat) (once : Bool) (cursor : Nat) (t : Throw) : Option (List Int64) :=
  if t.valid && condition.accepts (.int t.face) then
    if once then some [t.faces.ofSample (samples cursor)]
    else chase samples condition t.faces patience cursor
  else some []

def discarded (t : Throw) : Throw :=
  { t with status := { t.status with valid := false }, rerolled := true }

def withReplacements (t : Throw) : List Int64 → List Throw
  | [] => [t]
  | face :: faces => discarded t :: withReplacements (Throw.fresh t.faces face 0) faces

def rerollFrom (patience : Nat) (once : Bool) : Nat → List Throw → Option (List Throw × Nat)
  | cursor, [] => some ([], cursor)
  | cursor, t :: ts => do
    let faces ← replacements samples condition patience once cursor t
    let (rest, stop) ← rerollFrom patience once (cursor + faces.length) ts
    return (withReplacements t faces ++ rest, stop)

end Chase

/-- New throws for valid ones that meet the condition, by default the lowest face. -/
def reroll (samples : Samples) (patience : Nat) (once : Bool) (condition : Option (Target Number))
    (modifier : String) (cursor : Nat) : List Throw → Except Fault (List Throw) × Nat
  | [] => (.ok [], cursor)
  | t :: ts =>
    let condition := condition.getD ⟨.equal, .int t.faces.lowest⟩
    if isEndless t.faces condition then (.error (.endless modifier), cursor)
    else
      match rerollFrom samples condition patience once cursor (t :: ts) with
      | some (ts, stop) => (.ok (Throw.lineUp ts), stop)
      | none => (.error (.unsettled modifier), cursor)

theorem reroll_error {samples : Samples} {patience : Nat} {once : Bool}
    {condition : Option (Target Number)} {modifier : String} {cursor stop : Nat} {ts : List Throw}
    {e : Fault} (h : reroll samples patience once condition modifier cursor ts = (.error e, stop)) :
    (e = .endless modifier ∨ e = .unsettled modifier) ∧ stop = cursor := by
  cases ts with
  | nil => cases h
  | cons t ts =>
    simp only [reroll] at h
    split at h
    · cases h
      exact ⟨.inl rfl, rfl⟩
    · split at h
      · cases h
      · cases h
        exact ⟨.inr rfl, rfl⟩

end DiceNotation.Stage

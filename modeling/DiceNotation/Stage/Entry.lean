import DiceNotation.Formula.Basic
import DiceNotation.Outcome.Basic

/-!
Entries as the stages see them: throws of a die, members of a group, or the pool of a group that is
one die. Stages sort entries by insertion from the left, which keeps equal entries in order.
-/

namespace DiceNotation

def Target.accepts (t : Target Number) (n : Number) : Bool :=
  t.relation.holds t.value n

/-- An entry: where it stands, the number that it shows, and its status. -/
structure Entry where
  place : Nat
  shown : Number
  status : Status

section Sorting

variable {α : Type} (before : α → α → Bool)

/-- Puts an element into a list that runs from last to first, past those that it comes before. -/
def insertBack (x : α) : List α → List α
  | [] => [x]
  | y :: ys => if before x y then y :: insertBack x ys else x :: y :: ys

def stableSort (xs : List α) : List α :=
  (xs.foldl (fun sorted x => insertBack before x sorted) []).reverse

theorem insertBack_perm (x : α) (xs : List α) : (insertBack before x xs).Perm (x :: xs) := by
  induction xs with
  | nil => exact .refl _
  | cons y ys ih =>
    by_cases h : before x y
    · simpa [insertBack, h] using (ih.cons y).trans (.swap x y ys)
    · simp [insertBack, h]

theorem foldl_insertBack_perm (xs sorted : List α) :
    (xs.foldl (fun sorted x => insertBack before x sorted) sorted).Perm (xs ++ sorted) := by
  induction xs generalizing sorted with
  | nil => exact .refl _
  | cons x xs ih =>
    have step := (insertBack_perm before x sorted).append_left xs
    exact ((ih _).trans step).trans List.perm_middle

theorem stableSort_perm (xs : List α) : (stableSort before xs).Perm xs := by
  have all := foldl_insertBack_perm before xs []
  exact (List.reverse_perm _).trans (by simpa using all)

@[simp] theorem length_stableSort (xs : List α) : (stableSort before xs).length = xs.length :=
  (stableSort_perm before xs).length_eq

end Sorting

namespace Entry

def ofStatuses (ss : List Status) : List Entry :=
  ss.mapIdx fun i s => ⟨i, s.value, s⟩

def ofThrows (ts : List Throw) : List Entry :=
  ts.mapIdx fun i t => ⟨i, .int t.face, t.status⟩

def statuses (es : List Entry) : List Status :=
  (stableSort (fun a b => decide (a.place < b.place)) es).map status

def valid (e : Entry) : Bool :=
  e.status.valid

def mapStatus (f : Status → Status) (e : Entry) : Entry :=
  { e with status := f e.status }

end Entry

end DiceNotation

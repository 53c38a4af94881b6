import DiceNotation.Proofs.Stage.Reordering

/-! Keeping all entries and dropping none. A stage that drops nothing still sorts its entries and
puts them back by their orders; where orders rise, this is the list that it was given. -/

namespace DiceNotation

/-- How many whole entries a number asks for. -/
def Number.wholes (n : Number) : Nat :=
  n.floor.toInt64.toInt.toNat

/-- A modifier that drops none of so many entries. -/
inductive Modifier.Idle (size : Nat) : Modifier Number → Prop
  | keep (extreme : Extreme) {count : Number} (h : size ≤ count.wholes) :
      Idle size (.keep extreme count)
  | drop (extreme : Extreme) {count : Number} (h : count.wholes = 0) :
      Idle size (.drop extreme count)

theorem Modifier.Idle.isTarget_eq {size : Nat} {m : Modifier Number} (h : m.Idle size) :
    m.isTarget = false := by
  cases h <;> rfl

namespace Stage

variable {es : List Entry}

theorem boundedCount_of_le {count : Number} {size : Nat} (h : size ≤ count.wholes) :
    boundedCount count size = size :=
  Nat.min_eq_right h

theorem boundedCount_of_none {count : Number} (h : count.wholes = 0) (size : Nat) :
    boundedCount count size = 0 := by
  rw [boundedCount, ← Number.wholes, h, Nat.zero_min]

/-- Entries whose orders rise are in order, wherever they were moved to. -/
theorem inOrder_of_perm {moved : List Entry} (h : moved.Perm es) (hes : Entry.Rising es) :
    inOrder moved = es :=
  stableSort_eq_of_perm (fun e : Entry => e.status.order) h hes

theorem keep_idle (extreme : Extreme) {count : Number} (h : es.length ≤ count.wholes)
    (hes : Entry.Rising es) : keep extreme count es = es := by
  have hnone : es.countP Entry.valid - boundedCount count es.length = 0 := by
    rw [boundedCount_of_le h]
    exact Nat.sub_eq_zero_of_le List.countP_le_length
  have rest {sorted : List Entry} (hsorted : sorted.Perm es) :
      inOrder (dropFirst 0 (invalidFirst sorted)) = es := by
    rw [dropFirst]
    exact inOrder_of_perm ((stableSort_perm _ sorted).trans hsorted) hes
  cases extreme with
  | high | low =>
    simp only [keep, hnone]
    exact rest (stableSort_perm _ es)

theorem drop_idle (extreme : Extreme) {count : Number} (h : count.wholes = 0)
    (hes : Entry.Rising es) : drop extreme count es = es := by
  cases extreme with
  | high | low =>
    simp only [drop, boundedCount_of_none h, dropFirst]
    exact inOrder_of_perm (stableSort_perm _ es) hes

/-- A stage that drops nothing changes nothing. -/
theorem apply_idle {m : Modifier Number} (h : m.Idle es.length) (hes : Entry.Rising es) :
    apply m es = es := by
  cases h with
  | keep extreme h => exact keep_idle extreme h hes
  | drop extreme h => exact drop_idle extreme h hes

theorem through_append (ms ms' : List (Modifier Number)) (es : List Entry) :
    through (ms ++ ms') es = through ms' (through ms es) :=
  List.foldl_append

/-- Nor does it change what later stages do. -/
theorem through_insert {m : Modifier Number} (h : m.Idle es.length) (hes : Entry.Rising es)
    (ms ms' : List (Modifier Number)) :
    through (ms ++ m :: ms') es = through (ms ++ ms') es := by
  have hmarks := forall₂_through ms hes
  have hidle : m.Idle (through ms es).length := hmarks.length_eq ▸ h
  rw [through_append, through_append, through_cons, apply_idle hidle (hes.of_marks hmarks)]

end Stage

end DiceNotation

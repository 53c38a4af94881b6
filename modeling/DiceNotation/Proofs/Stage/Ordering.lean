import DiceNotation.Stage.Entry
import Mathlib.Order.Lattice
import Mathlib.Data.List.Nodup

/-! The stable sort by a key: what comes out is in order, and a list whose keys rise is the one
order of its elements. -/

namespace DiceNotation

section Sorting

variable {α β : Type}

theorem insertBack_map (f : α → β) {before : α → α → Bool} {before' : β → β → Bool}
    (h : ∀ a b, before' (f a) (f b) = before a b) (x : α) (xs : List α) :
    insertBack before' (f x) (xs.map f) = (insertBack before x xs).map f := by
  induction xs with
  | nil => rfl
  | cons y ys ih =>
    simp only [List.map_cons, insertBack, h, ih]
    split <;> rfl

/-- A sort sees no more of the elements than its comparison does. -/
theorem stableSort_map (f : α → β) {before : α → α → Bool} {before' : β → β → Bool}
    (h : ∀ a b, before' (f a) (f b) = before a b) (xs : List α) :
    stableSort before' (xs.map f) = (stableSort before xs).map f := by
  have all (sorted : List α) :
      (xs.map f).foldl (fun sorted x => insertBack before' x sorted) (sorted.map f) =
        (xs.foldl (fun sorted x => insertBack before x sorted) sorted).map f := by
    induction xs generalizing sorted with
    | nil => rfl
    | cons x xs ih =>
      rw [List.map_cons, List.foldl_cons, List.foldl_cons, insertBack_map f h, ih]
  rw [stableSort, stableSort, List.map_reverse, ← all []]
  rfl

variable {κ : Type} [LinearOrder κ] (key : α → κ)

theorem pairwise_insertBack (x : α) {xs : List α}
    (h : xs.Pairwise fun a b => key b ≤ key a) :
    (insertBack (fun a b => decide (key a < key b)) x xs).Pairwise fun a b => key b ≤ key a := by
  induction xs with
  | nil => simp [insertBack]
  | cons y ys ih =>
    obtain ⟨hy, hys⟩ := List.pairwise_cons.mp h
    by_cases hxy : key x < key y
    · simp only [insertBack, hxy, decide_true, if_true, List.pairwise_cons]
      refine ⟨fun z hz => ?_, ih hys⟩
      rcases List.mem_cons.mp ((insertBack_perm _ x ys).mem_iff.mp hz) with rfl | hz
      · exact le_of_lt hxy
      · exact hy z hz
    · simp only [insertBack, hxy, decide_false, Bool.false_eq_true, if_false, List.pairwise_cons]
      refine ⟨fun z hz => ?_, hy, hys⟩
      rcases List.mem_cons.mp hz with rfl | hz
      · exact le_of_not_gt hxy
      · exact le_trans (hy z hz) (le_of_not_gt hxy)

theorem pairwise_stableSort (xs : List α) :
    (stableSort (fun a b => decide (key a < key b)) xs).Pairwise fun a b => key a ≤ key b := by
  have all (sorted : List α) (h : sorted.Pairwise fun a b => key b ≤ key a) :
      (xs.foldl (fun sorted x => insertBack (fun a b => decide (key a < key b)) x sorted)
        sorted).Pairwise fun a b => key b ≤ key a := by
    induction xs generalizing sorted with
    | nil => exact h
    | cons x xs ih => exact ih _ (pairwise_insertBack key x h)
  exact List.pairwise_reverse.mpr (all [] List.Pairwise.nil)

/-- Elements whose keys rise come back in that order, however they were moved about. -/
theorem stableSort_eq_of_perm {xs ys : List α} (h : xs.Perm ys)
    (hys : ys.Pairwise fun a b => key a < key b) :
    stableSort (fun a b => decide (key a < key b)) xs = ys := by
  have hperm := (stableSort_perm (fun a b => decide (key a < key b)) xs).trans h
  refine hperm.eq_of_pairwise ?_ (pairwise_stableSort key xs) (hys.imp le_of_lt)
  have hnodup : (ys.map key).Nodup := List.pairwise_map.mpr (hys.imp ne_of_lt)
  intro a b ha hb hab hba
  exact List.inj_on_of_nodup_map hnodup (hperm.mem_iff.mp ha) hb (le_antisymm hab hba)

end Sorting

end DiceNotation

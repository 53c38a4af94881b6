import Mathlib.Algebra.GroupWithZero.Nat
import DiceNotation.Proofs.Stage.Throwing

/-! Throws that are drawn one after the other. A stage that throws dice again puts behind a throw
those that followed from it, so what it leaves is made of blocks, one for each throw that it found;
the blocks take turns at the source. -/

namespace DiceNotation

section ButLast

variable {α : Type} (f : α → α)

/-- A list with all but its last element changed. -/
def butLast (xs : List α) : List α :=
  xs.dropLast.map f ++ xs.getLast?.toList

theorem mem_butLast {x : α} {xs : List α} (h : x ∈ butLast f xs) :
    (∃ y ∈ xs.dropLast, f y = x) ∨ x ∈ xs.getLast? := by
  rw [butLast, List.mem_append, List.mem_map, Option.mem_toList] at h
  exact h

/-- Where the change makes none of a kind, only the last can be of that kind. -/
theorem countP_butLast {p : α → Bool} (hf : ∀ x, p (f x) = false) (xs : List α) :
    (butLast f xs).countP p = xs.getLast?.toList.countP p := by
  have hnone : (xs.dropLast.map f).countP p = 0 := by
    rw [List.countP_map, List.countP_eq_zero]
    intro x _
    simp [hf]
  rw [butLast, List.countP_append, hnone, Nat.zero_add]

end ButLast

namespace Throw

/-- A throw, and as many more that are drawn after it. -/
def succession (draw : Nat → Throw) (cursor : Nat) (t : Throw) (m : Nat) : List Throw :=
  t :: (List.range m).map fun i => draw (cursor + i)

variable (draw : Nat → Throw) (cursor : Nat) (t : Throw)

theorem succession_zero : succession draw cursor t 0 = [t] :=
  rfl

theorem succession_succ (m : Nat) :
    succession draw cursor t (m + 1) = t :: succession draw (cursor + 1) (draw cursor) m := by
  have hshift (i : Nat) : draw (cursor + (i + 1)) = draw (cursor + 1 + i) := by
    rw [Nat.add_comm i 1, Nat.add_assoc]
  simp [succession, List.range_succ_eq_map, Function.comp_def, hshift]

theorem getLast?_succession_succ (m : Nat) :
    (succession draw cursor t (m + 1)).getLast? = some (draw (cursor + m)) := by
  rw [succession, List.range_succ, List.map_append, ← List.cons_append]
  exact List.getLast?_concat

/-- What all but the last of a succession have is had by all but the last of one that begins before. -/
theorem forall_dropLast_succession_succ {P : Throw → Prop} {m : Nat} (ht : P t)
    (h : ∀ u ∈ (succession draw (cursor + 1) (draw cursor) m).dropLast, P u) :
    ∀ u ∈ (succession draw cursor t (m + 1)).dropLast, P u := by
  rw [succession_succ]
  exact List.forall_mem_cons.mpr ⟨ht, h⟩

end Throw

namespace Stage

/-- Blocks that take turns at a source: each stands for a throw and begins where the one before it
has come to, and draws as many samples as it has throws behind its first. -/
inductive InTurn (R : Nat → Throw → List Throw → Prop) :
    Nat → List Throw → List (List Throw) → Nat → Prop
  | nil (cursor : Nat) : InTurn R cursor [] [] cursor
  | cons {cursor stop : Nat} {t : Throw} {ts : List Throw} {block : List Throw}
      {blocks : List (List Throw)} (first : R cursor t block)
      (others : InTurn R (cursor + block.tail.length) ts blocks stop) :
      InTurn R cursor (t :: ts) (block :: blocks) stop

namespace InTurn

variable {R : Nat → Throw → List Throw → Prop} {cursor stop : Nat} {ts : List Throw}
  {blocks : List (List Throw)}

theorem stop_eq (h : InTurn R cursor ts blocks stop) :
    stop = cursor + (blocks.map fun block => block.tail.length).sum := by
  induction h with
  | nil => rfl
  | cons _ _ ih => rw [ih, List.map_cons, List.sum_cons, Nat.add_assoc]

theorem forall_flatten {P : Throw → Prop} (hR : ∀ cursor t block, R cursor t block → ∀ u ∈ block, P u)
    (h : InTurn R cursor ts blocks stop) : ∀ u ∈ blocks.flatten, P u := by
  induction h with
  | nil => exact List.forall_mem_nil _
  | cons first _ ih =>
    rw [List.flatten_cons, List.forall_mem_append]
    exact ⟨hR _ _ _ first, ih⟩

/-- Blocks that have as many throws of a kind as they stand for have as many of them together. -/
theorem countP_flatten {p : Throw → Bool}
    (hR : ∀ cursor t block, R cursor t block → block.countP p = [t].countP p)
    (h : InTurn R cursor ts blocks stop) : blocks.flatten.countP p = ts.countP p := by
  induction h with
  | nil => rfl
  | cons first _ ih =>
    rw [List.flatten_cons, List.countP_append, hR _ _ _ first, ih, ← List.countP_append]
    rfl

end InTurn

theorem countP_lineUp {p : Throw → Bool} (hp : ∀ t i, p (t.place i) = p t) (ts : List Throw) :
    (Throw.lineUp ts).countP p = ts.countP p := by
  rw [← Function.id_comp p, ← List.countP_map, Throw.map_lineUp hp, List.countP_map]

end Stage

end DiceNotation

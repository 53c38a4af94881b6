import Mathlib.Algebra.GroupWithZero.Nat
import Mathlib.Data.List.Basic

/-! Data that nests: what stands right inside of each element, and from it the list of all that
stands anywhere inside, with one induction for every such type. -/

namespace DiceNotation

/-- Elements with their children, where no chain of children goes on for ever. -/
class Nested (α : Type) where
  children : α → List α
  wellFounded : WellFounded fun b a => b ∈ children a

namespace Nested

variable {α : Type} [Nested α]

instance : WellFoundedRelation α := ⟨_, wellFounded⟩

/-- The element itself and all that stands anywhere inside of it, from left to right. -/
def parts (a : α) : List α :=
  a :: (children a).attach.flatMap fun b => parts b.1
termination_by a
decreasing_by exact b.2

theorem parts_eq (a : α) : parts a = a :: (children a).flatMap parts := by
  rw [parts, List.flatMap_subtype (g := parts) (by simp), List.unattach_attach]

theorem induct {P : α → Prop} (step : ∀ a, (∀ b ∈ children a, P b) → P a) (a : α) : P a :=
  wellFounded.induction a step

theorem mem_parts_self (a : α) : a ∈ parts a := by
  rw [parts_eq]
  exact List.mem_cons_self

theorem mem_parts_of_mem_children {a b c : α} (hb : b ∈ children a) (hc : c ∈ parts b) :
    c ∈ parts a := by
  rw [parts_eq]
  exact List.mem_cons_of_mem _ (List.mem_flatMap.mpr ⟨b, hb, hc⟩)

/-- A property of all parts is one of the element and of all parts of its children. -/
theorem forall_parts_iff {P : α → Prop} (a : α) :
    (∀ b ∈ parts a, P b) ↔ P a ∧ ∀ c ∈ children a, ∀ b ∈ parts c, P b := by
  rw [parts_eq, List.forall_mem_cons]
  refine and_congr_right fun _ => ⟨fun h c hc b hb => ?_, fun h b hb => ?_⟩
  · exact h b (List.mem_flatMap.mpr ⟨c, hc, hb⟩)
  · obtain ⟨c, hc, hbc⟩ := List.mem_flatMap.mp hb
    exact h c hc b hbc

/-- What the parts weigh together. -/
def weight (w : α → Nat) (a : α) : Nat :=
  ((parts a).map w).sum

theorem weight_eq (w : α → Nat) (a : α) :
    weight w a = w a + ((children a).map (weight w)).sum := by
  rw [weight, parts_eq, List.map_cons, List.sum_cons, List.map_flatMap, List.flatMap_def,
    List.sum_flatten, List.map_map]
  rfl

theorem sizeOf_lt_of_mem_tail {ω β : Type} [SizeOf ω] [SizeOf β] {tail : List (ω × β)} {b : β}
    (h : b ∈ tail.map Prod.snd) : sizeOf b < sizeOf tail := by
  obtain ⟨⟨op, c⟩, hc, rfl⟩ := List.mem_map.mp h
  have hlt := List.sizeOf_lt_of_mem hc
  rw [Prod.mk.sizeOf_spec] at hlt
  dsimp only
  omega

theorem map_snd_map_tail {ω β γ : Type} (f : β → γ) (tail : List (ω × β)) :
    (tail.map (Prod.map id f)).map Prod.snd = (tail.map Prod.snd).map f := by
  rw [List.map_map, List.map_map]
  rfl

theorem map_tail_eq_self {ω β : Type} {f : β → β} {tail : List (ω × β)}
    (h : ∀ b ∈ tail.map Prod.snd, f b = b) : tail.map (Prod.map id f) = tail := by
  have hid : tail.map (Prod.map id f) = tail.map id :=
    List.map_congr_left fun t ht => Prod.ext rfl (h t.2 (List.mem_map_of_mem ht))
  rw [hid, List.map_id]

end Nested

end DiceNotation

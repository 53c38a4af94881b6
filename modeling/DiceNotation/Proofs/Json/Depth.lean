import DiceNotation.Json.Basic

/-! How deep the arrays and objects of a value nest. -/

namespace DiceNotation.Json

mutual
def depth : Json → Nat
  | .array items => depthItems items + 1
  | .object fields => depthFields fields + 1
  | _ => 0

def depthItems : List Json → Nat
  | [] => 0
  | v :: items => max v.depth (depthItems items)

def depthFields : List (String × Json) → Nat
  | [] => 0
  | (_, v) :: fields => max v.depth (depthFields fields)
end

theorem depthItems_le_iff {items : List Json} {n : Nat} :
    depthItems items ≤ n ↔ ∀ v ∈ items, v.depth ≤ n := by
  induction items with
  | nil => simp [depthItems]
  | cons v items ih => rw [depthItems, Nat.max_le, ih, List.forall_mem_cons]

theorem depthFields_le_iff {fields : List (String × Json)} {n : Nat} :
    depthFields fields ≤ n ↔ ∀ f ∈ fields, f.2.depth ≤ n := by
  induction fields with
  | nil => simp [depthFields]
  | cons f fields ih =>
    obtain ⟨key, v⟩ := f
    rw [depthFields, Nat.max_le, ih, List.forall_mem_cons]

theorem depth_lt_of_mem_items {items : List Json} {v : Json} (h : v ∈ items) :
    v.depth < (Json.array items).depth := by
  rw [depth, Nat.lt_succ_iff]
  exact depthItems_le_iff.mp (Nat.le_refl _) v h

theorem depth_lt_of_mem_fields {fields : List (String × Json)} {key : String} {v : Json}
    (h : (key, v) ∈ fields) : v.depth < (Json.object fields).depth := by
  rw [depth, Nat.lt_succ_iff]
  exact depthFields_le_iff.mp (Nat.le_refl _) (key, v) h

end DiceNotation.Json

import DiceNotation.Outcome.Basic
import DiceNotation.Proofs.Nesting

/-! The parts of an outcome. Throws are no outcomes of their own: they stand in a die and nowhere
else. -/

namespace DiceNotation

namespace Outcome

def operands : Outcome → List Outcome
  | ⟨_, .die count faces _, _⟩ => count :: faces.toList
  | ⟨_, .diceSum head tail, _⟩ => head :: tail.map Prod.snd
  | ⟨_, .arithmetic head tail, _⟩ => head :: tail.map Prod.snd
  | ⟨_, .group members, _⟩ => members
  | ⟨_, .function _ o, _⟩ | ⟨_, .replacement _ o, _⟩ => [o]
  | ⟨_, .number, _⟩ => []

/-- The throws right inside of an outcome, which are those of a die. -/
def throws : Outcome → List Throw
  | ⟨_, .die _ _ throws, _⟩ => throws
  | _ => []

/-- A label changes no part. -/
theorem operands_relabel (o : Outcome) (label : Option String) :
    (o.relabel label).operands = o.operands := by
  obtain ⟨status, body, old⟩ := o
  cases label with
  | none => rfl
  | some label => cases body <;> rfl

theorem operands_place (o : Outcome) (order : Nat) : (o.place order).operands = o.operands := by
  obtain ⟨status, body, label⟩ := o
  cases body <;> rfl

theorem body_relabel (o : Outcome) (label : Option String) : (o.relabel label).body = o.body := by
  cases label <;> rfl

theorem throws_relabel (o : Outcome) (label : Option String) :
    (o.relabel label).throws = o.throws := by
  obtain ⟨status, body, old⟩ := o
  cases label with
  | none => rfl
  | some label => cases body <;> rfl

theorem sizeOf_lt_of_mem_operands {o p : Outcome} (h : p ∈ o.operands) : sizeOf p < sizeOf o := by
  obtain ⟨status, body, label⟩ := o
  rw [Outcome.mk.sizeOf_spec]
  cases body with
  | die count faces throws =>
    rw [Body.die.sizeOf_spec]
    rcases List.mem_cons.mp h with rfl | h
    · omega
    · obtain rfl : faces = some p := Option.mem_toList.mp h
      rw [Option.some.sizeOf_spec]
      omega
  | diceSum head tail | arithmetic head tail =>
    simp only [Body.diceSum.sizeOf_spec, Body.arithmetic.sizeOf_spec]
    rcases List.mem_cons.mp h with rfl | h
    · omega
    · have := Nested.sizeOf_lt_of_mem_tail h
      omega
  | group members =>
    have : sizeOf p < sizeOf members := List.sizeOf_lt_of_mem h
    rw [Body.group.sizeOf_spec]
    omega
  | function _ o | replacement _ o =>
    obtain rfl := List.mem_singleton.mp h
    simp only [Body.function.sizeOf_spec, Body.replacement.sizeOf_spec]
    omega
  | number => simp [operands] at h

instance : Nested Outcome where
  children := operands
  wellFounded := Subrelation.wf sizeOf_lt_of_mem_operands (measure sizeOf).wf

end Outcome

end DiceNotation

import DiceNotation.Proofs.Number.Range
import DiceNotation.Proofs.Roll.Refusals
import DiceNotation.Token.Scan

/-! Formulas of the shape that the notation gives them: modifiers stand where they belong, a chain has
operators of one level, and whether it is one of dice agrees with what it holds. -/

namespace DiceNotation

/-- Whether the modifier is one of a die that is not a target. -/
def Modifier.isForThrows {α : Type} : Modifier α → Bool
  | .success _ | .failure _ | .unknown => false
  | _ => true

/-- Whether a shape is one that can be written, whatever stands inside of it. -/
def Shape.Proper : Shape → Prop
  | .number value => value ≠ .int Int64.minValue
  | .die d => (∀ m ∈ d.mods, m.isForThrows = true) ∧ ∀ m ∈ d.targets, m.isTarget = true
  | .diceSum head tail => tail ≠ [] ∧
      (head.throwsDice = true ∨ ∃ t ∈ tail, t.2.throwsDice = true)
  | .arithmetic head tail => tail ≠ [] ∧
      ((∀ t ∈ tail, t.1 ∈ [.add, .sub]) ∧ head.throwsDice = false ∧
          (∀ t ∈ tail, t.2.throwsDice = false) ∨
        (∀ t ∈ tail, t.1 ∈ [.mul, .div, .rem]) ∨ ∃ f, tail = [(.pow, f)])
  | .group _ _ mods => ∀ m ∈ mods, m.isForGroups = true
  | .function .. | .replacement .. | .inline _ => True
  | .unknown => False

namespace Formula

/-- A proper shape, under a label that can stand in brackets. -/
def Proper (f : Formula) : Prop :=
  f.shape.Proper ∧ ∀ label ∈ f.label, ∀ c ∈ label.toList, Token.isBracket c = false

def WellFormed (f : Formula) : Prop :=
  ∀ g ∈ Nested.parts f, g.Proper

theorem Proper.known {f : Formula} (h : f.Proper) : f.Known := by
  obtain ⟨shape, label⟩ := f
  cases shape with
  | die d =>
    refine List.forall_mem_append.mpr ⟨fun m hm => ?_, fun m hm => ?_⟩
    · have hthrows := h.1.1 m hm
      cases m <;> first | rfl | cases hthrows
    · have htarget := h.1.2 m hm
      cases m <;> first | rfl | cases htarget
  | group first others mods => exact h.1
  | unknown => exact h.1
  | number | diceSum | arithmetic | function | replacement | inline => trivial

theorem WellFormed.supported {f : Formula} (h : f.WellFormed) : f.Supported :=
  fun g hg => (h g hg).known

section Parts

variable {f : Formula} {shape : Shape} {label : Option String}

theorem wellFormed_iff (f : Formula) : f.WellFormed ↔
    f.Proper ∧ (∀ g ∈ f.operands, g.WellFormed) ∧ ∀ g ∈ f.arguments, g.WellFormed := by
  rw [WellFormed, Nested.forall_parts_iff, children_eq, List.forall_mem_append]
  rfl

/-- What stands inside of a formula does not depend on its label. -/
theorem WellFormed.relabel (h : f.WellFormed)
    (hlabel : ∀ l ∈ label, ∀ c ∈ l.toList, Token.isBracket c = false) :
    WellFormed ⟨f.shape, label⟩ := by
  obtain ⟨shape, before⟩ := f
  rw [wellFormed_iff] at h ⊢
  obtain ⟨⟨hshape, -⟩, hoperands, harguments⟩ := h
  refine ⟨⟨hshape, hlabel⟩, ?_, ?_⟩ <;> cases shape <;> assumption

theorem wellFormed_bare (hshape : shape.Proper) (hoperands : ∀ g ∈ (bare shape).operands, g.WellFormed)
    (harguments : ∀ g ∈ (bare shape).arguments, g.WellFormed) : (bare shape).WellFormed :=
  (wellFormed_iff _).mpr ⟨⟨hshape, nofun⟩, hoperands, harguments⟩

theorem wellFormed_number {value : Number} (h : value ≠ .int Int64.minValue) :
    (number value).WellFormed :=
  wellFormed_bare h nofun nofun

theorem wellFormed_negated (h : f.WellFormed) : (negated f).WellFormed := by
  refine wellFormed_bare ⟨List.cons_ne_nil _ _, .inr (.inl ?_)⟩ ?_ nofun
  · simp
  · have hone : (int (-1)).WellFormed := wellFormed_number (by simp)
    exact List.forall_mem_cons.mpr ⟨hone, List.forall_mem_singleton.mpr h⟩

end Parts

end Formula

/-- The least integer is the negation of none. -/
theorem Number.neg_ne_minValue (n : Number) : -n ≠ .int Int64.minValue := by
  cases n with
  | float x => exact nofun
  | int i =>
    intro h
    have hneg : (-Number.int i : Number) = ofInt (-i.toInt) := rfl
    rw [hneg, ofInt, ofIntOr] at h
    split at h
    · rename_i hfits
      have heq := congrArg Int64.toInt (Number.int.inj h)
      rw [Number.toInt_ofInt_of_fits hfits] at heq
      have hmin : Int64.minValue.toInt = -0x8000000000000000 := rfl
      have hlt := Int64.toInt_lt i
      omega
    · cases h

end DiceNotation

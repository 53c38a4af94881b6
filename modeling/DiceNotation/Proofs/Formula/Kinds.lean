import DiceNotation.Proofs.Formula.Parts

/-! The kind of a modifier, which is what rolling its arguments leaves as it was. -/

namespace DiceNotation

namespace Modifier

variable {α β : Type}

def map (f : α → β) : Modifier α → Modifier β
  | .keep extreme count => .keep extreme (f count)
  | .drop extreme count => .drop extreme (f count)
  | .success t => .success ⟨t.relation, f t.value⟩
  | .failure t => .failure ⟨t.relation, f t.value⟩
  | .critical t => .critical ⟨t.relation, f t.value⟩
  | .criticalFailure t => .criticalFailure ⟨t.relation, f t.value⟩
  | .explode mode t => .explode mode (t.map fun t => ⟨t.relation, f t.value⟩)
  | .reroll once t => .reroll once (t.map fun t => ⟨t.relation, f t.value⟩)
  | .unknown => .unknown

/-- A modifier without its arguments. -/
def kind (m : Modifier α) : Modifier Unit :=
  m.map fun _ => ()

@[simp] def isCompound : Modifier α → Bool
  | .explode .compound _ => true
  | _ => false

@[simp] def isPenetrating : Modifier α → Bool
  | .explode .penetrate _ => true
  | _ => false

@[simp] def isExplosion : Modifier α → Bool
  | .explode .. => true
  | _ => false

@[simp] def isReroll : Modifier α → Bool
  | .reroll .. => true
  | _ => false

/-- Whether the modifier may throw one die again and again. -/
@[simp] def isUnlimited : Modifier α → Bool
  | .reroll false _ => true
  | _ => false

theorem isCompound_kind (m : Modifier α) : m.kind.isCompound = m.isCompound := by
  cases m with
  | explode mode _ => cases mode <;> rfl
  | _ => rfl

theorem isPenetrating_kind (m : Modifier α) : m.kind.isPenetrating = m.isPenetrating := by
  cases m with
  | explode mode _ => cases mode <;> rfl
  | _ => rfl

theorem isUnlimited_kind (m : Modifier α) : m.kind.isUnlimited = m.isUnlimited := by
  cases m with
  | reroll once _ => cases once <;> rfl
  | _ => rfl

theorem isTarget_map (f : α → β) (m : Modifier α) : (m.map f).isTarget = m.isTarget := by
  cases m <;> rfl

theorem any_isTarget_map (f : α → β) (ms : List (Modifier α)) :
    (ms.map (Modifier.map f)).any isTarget = ms.any isTarget := by
  rw [List.any_map]
  exact List.any_congr rfl (isTarget_map f)

theorem isEmpty_filter_isTarget (ms : List (Modifier α)) :
    (!(ms.filter isTarget).isEmpty) = ms.any isTarget := by
  rw [Bool.eq_iff_iff]
  simp [List.filter_eq_nil_iff]

end Modifier

/-- A formula without compound explosions anywhere inside of it. -/
def Formula.Uncompounded (f : Formula) : Prop :=
  ∀ g ∈ Nested.parts f, ∀ m ∈ g.modifiers, m.isCompound = false

/-- A formula without a reroll, anywhere inside of it, that goes on until it is content. -/
def Formula.Limited (f : Formula) : Prop :=
  ∀ g ∈ Nested.parts f, ∀ m ∈ g.modifiers, m.isUnlimited = false

end DiceNotation

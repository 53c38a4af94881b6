import DiceNotation.Formula.Basic
import DiceNotation.Proofs.Nesting

/-! The parts of a formula. Right inside of it stand its operands, which are rolled whatever comes
of them, and the arguments that its modifiers and its matching take their numbers from. -/

namespace DiceNotation

section Arguments

variable {α : Type}

@[simp] def Faces.arguments : Faces α → List α
  | .fate => []
  | .sides count => [count]

@[simp] def Modifier.arguments : Modifier α → List α
  | .keep _ count | .drop _ count => [count]
  | .success t | .failure t | .critical t | .criticalFailure t => [t.value]
  | .explode _ t | .reroll _ t => t.toList.map Target.value
  | .unknown => []

@[simp] def Matching.arguments (m : Matching α) : List α :=
  m.least :: m.filter.toList.map Target.value

end Arguments

namespace Formula

@[simp] def operands : Formula → List Formula
  | ⟨.die d, _⟩ => d.count :: d.faces.arguments
  | ⟨.diceSum head tail, _⟩ => head :: tail.map Prod.snd
  | ⟨.arithmetic head tail, _⟩ => head :: tail.map Prod.snd
  | ⟨.group first others _, _⟩ => first :: others
  | ⟨.function _ f, _⟩ | ⟨.replacement _ f, _⟩ | ⟨.inline f, _⟩ => [f]
  | ⟨.number _, _⟩ | ⟨.unknown, _⟩ => []

/-- The modifiers of a die, its targets among them, or those of a group. -/
@[simp] def modifiers : Formula → List (Modifier Formula)
  | ⟨.die d, _⟩ => d.mods ++ d.targets
  | ⟨.group _ _ mods, _⟩ => mods
  | _ => []

@[simp] def matching? : Formula → Option (Matching Formula)
  | ⟨.die d, _⟩ => d.matching
  | _ => none

/-- What the modifiers and the matching of a formula take their numbers from. -/
@[simp] def arguments (f : Formula) : List Formula :=
  f.modifiers.flatMap Modifier.arguments ++ f.matching?.toList.flatMap Matching.arguments

@[simp] def isDie : Formula → Bool
  | ⟨.die _, _⟩ => true
  | _ => false

theorem sizeOf_lt_of_mem_faces {faces : Faces Formula} {g : Formula} (h : g ∈ faces.arguments) :
    sizeOf g < sizeOf faces := by
  cases faces with
  | fate => simp [Faces.arguments] at h
  | sides count =>
    obtain rfl := List.mem_singleton.mp h
    rw [Faces.sides.sizeOf_spec]
    omega

theorem sizeOf_value_lt (t : Target Formula) : sizeOf t.value < sizeOf t := by
  obtain ⟨relation, value⟩ := t
  rw [Target.mk.sizeOf_spec]
  dsimp only
  omega

theorem sizeOf_lt_of_mem_target {t : Option (Target Formula)} {g : Formula}
    (h : g ∈ t.toList.map Target.value) : sizeOf g < sizeOf t := by
  cases t with
  | none => simp at h
  | some t =>
    obtain rfl := List.mem_singleton.mp h
    have := sizeOf_value_lt t
    rw [Option.some.sizeOf_spec]
    omega

theorem sizeOf_lt_of_mem_mod {m : Modifier Formula} {g : Formula} (h : g ∈ m.arguments) :
    sizeOf g < sizeOf m := by
  cases m with
  | keep _ count | drop _ count =>
    obtain rfl := List.mem_singleton.mp h
    simp only [Modifier.keep.sizeOf_spec, Modifier.drop.sizeOf_spec]
    omega
  | success t | failure t | critical t | criticalFailure t =>
    obtain rfl := List.mem_singleton.mp h
    have := sizeOf_value_lt t
    simp only [Modifier.success.sizeOf_spec, Modifier.failure.sizeOf_spec,
      Modifier.critical.sizeOf_spec, Modifier.criticalFailure.sizeOf_spec]
    omega
  | explode _ t | reroll _ t =>
    have := sizeOf_lt_of_mem_target h
    simp only [Modifier.explode.sizeOf_spec, Modifier.reroll.sizeOf_spec]
    omega
  | unknown => simp [Modifier.arguments] at h

theorem sizeOf_lt_of_mem_mods {mods : List (Modifier Formula)} {g : Formula}
    (h : g ∈ mods.flatMap Modifier.arguments) : sizeOf g < sizeOf mods := by
  obtain ⟨m, hm, hg⟩ := List.mem_flatMap.mp h
  exact Nat.lt_trans (sizeOf_lt_of_mem_mod hg) (List.sizeOf_lt_of_mem hm)

theorem sizeOf_lt_of_mem_matching {m : Option (Matching Formula)} {g : Formula}
    (h : g ∈ m.toList.flatMap Matching.arguments) : sizeOf g < sizeOf m := by
  cases m with
  | none => simp at h
  | some m =>
    obtain ⟨least, counted, filter⟩ := m
    rw [Option.toList_some, List.flatMap_singleton, Matching.arguments] at h
    rw [Option.some.sizeOf_spec, Matching.mk.sizeOf_spec]
    rcases List.mem_cons.mp h with rfl | hg
    · omega
    · have : sizeOf g < sizeOf filter := sizeOf_lt_of_mem_target hg
      omega

theorem sizeOf_lt_of_mem_operands {f g : Formula} (h : g ∈ f.operands) : sizeOf g < sizeOf f := by
  obtain ⟨shape, label⟩ := f
  rw [Formula.mk.sizeOf_spec]
  cases shape with
  | die d =>
    obtain ⟨count, faces, mods, targets, matching, sorting⟩ := d
    rw [Shape.die.sizeOf_spec, Die.mk.sizeOf_spec]
    rcases List.mem_cons.mp h with rfl | h
    · omega
    · have : sizeOf g < sizeOf faces := sizeOf_lt_of_mem_faces h
      omega
  | diceSum head tail | arithmetic head tail =>
    simp only [Shape.diceSum.sizeOf_spec, Shape.arithmetic.sizeOf_spec]
    rcases List.mem_cons.mp h with rfl | h
    · omega
    · have := Nested.sizeOf_lt_of_mem_tail h
      omega
  | group first others mods =>
    rw [Shape.group.sizeOf_spec]
    rcases List.mem_cons.mp h with rfl | h
    · omega
    · have := List.sizeOf_lt_of_mem h
      omega
  | function _ f | replacement _ f | inline f =>
    obtain rfl := List.mem_singleton.mp h
    simp only [Shape.function.sizeOf_spec, Shape.replacement.sizeOf_spec, Shape.inline.sizeOf_spec]
    omega
  | number _ | unknown => simp [operands] at h

theorem sizeOf_lt_of_mem_arguments {f g : Formula} (h : g ∈ f.arguments) : sizeOf g < sizeOf f := by
  obtain ⟨shape, label⟩ := f
  rw [Formula.mk.sizeOf_spec]
  cases shape with
  | die d =>
    obtain ⟨count, faces, mods, targets, matching, sorting⟩ := d
    rw [Shape.die.sizeOf_spec, Die.mk.sizeOf_spec]
    simp only [arguments, modifiers, matching?, List.flatMap_append, List.mem_append] at h
    rcases h with (h | h) | h
    · have := sizeOf_lt_of_mem_mods h
      omega
    · have := sizeOf_lt_of_mem_mods h
      omega
    · have := sizeOf_lt_of_mem_matching h
      omega
  | group first others mods =>
    have hg : g ∈ mods.flatMap Modifier.arguments := by
      simpa [arguments, modifiers, matching?] using h
    have := sizeOf_lt_of_mem_mods hg
    rw [Shape.group.sizeOf_spec]
    omega
  | number _ | diceSum _ _ | arithmetic _ _ | function _ _ | replacement _ _ | inline _ | unknown =>
    simp [arguments, modifiers, matching?] at h

theorem sizeOf_lt_of_mem_children {f g : Formula} (h : g ∈ f.operands ++ f.arguments) :
    sizeOf g < sizeOf f :=
  (List.mem_append.mp h).elim sizeOf_lt_of_mem_operands sizeOf_lt_of_mem_arguments

instance : Nested Formula where
  children f := f.operands ++ f.arguments
  wellFounded := Subrelation.wf sizeOf_lt_of_mem_children (measure sizeOf).wf

@[simp] theorem parts_number (value : Number) (label : Option String) :
    Nested.parts (⟨.number value, label⟩ : Formula) = [⟨.number value, label⟩] := by
  rw [Nested.parts_eq]
  rfl

theorem children_eq (f : Formula) : Nested.children f = f.operands ++ f.arguments :=
  rfl

end Formula

end DiceNotation

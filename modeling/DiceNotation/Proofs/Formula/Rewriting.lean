import DiceNotation.Proofs.Formula.Kinds

/-! Formulas rewritten from the inside out: every formula inside of another is rewritten before the
one that it stands in. Rewriting takes inline formulas apart and takes labels off. -/

namespace DiceNotation

section Maps

variable {α β : Type}

def Faces.map (f : α → β) : Faces α → Faces β
  | .fate => .fate
  | .sides count => .sides (f count)

def Matching.map (f : α → β) (m : Matching α) : Matching β where
  least := f m.least
  counted := m.counted
  filter := m.filter.map fun t => ⟨t.relation, f t.value⟩

def Die.map (f : α → β) (d : Die α) : Die β where
  count := f d.count
  faces := d.faces.map f
  mods := d.mods.map (Modifier.map f)
  targets := d.targets.map (Modifier.map f)
  matching := d.matching.map (Matching.map f)
  sorting := d.sorting

theorem Faces.arguments_map (f : α → β) (faces : Faces α) :
    (faces.map f).arguments = faces.arguments.map f := by
  cases faces <;> rfl

theorem Modifier.arguments_map (f : α → β) (m : Modifier α) :
    (m.map f).arguments = m.arguments.map f := by
  cases m with
  | explode _ t | reroll _ t => cases t <;> rfl
  | _ => rfl

theorem Modifier.flatMap_arguments_map (f : α → β) (ms : List (Modifier α)) :
    (ms.map (Modifier.map f)).flatMap arguments = (ms.flatMap arguments).map f := by
  rw [List.flatMap_map, List.map_flatMap]
  exact List.flatMap_congr fun m _ => arguments_map f m

theorem Matching.arguments_map (f : α → β) (m : Matching α) :
    (m.map f).arguments = m.arguments.map f := by
  obtain ⟨least, counted, filter⟩ := m
  cases filter <;> rfl

end Maps

/-- A shape with other formulas right inside of it. -/
def Shape.map (r : Formula → Formula) : Shape → Shape
  | .number value => .number value
  | .die d => .die (d.map r)
  | .diceSum head tail => .diceSum (r head) (tail.map (Prod.map id r))
  | .arithmetic head tail => .arithmetic (r head) (tail.map (Prod.map id r))
  | .group first others mods => .group (r first) (others.map r) (mods.map (Modifier.map r))
  | .function f argument => .function f (r argument)
  | .replacement name argument => .replacement name (r argument)
  | .inline inner => .inline (r inner)
  | .unknown => .unknown

namespace Formula

theorem operands_map (r : Formula → Formula) (shape : Shape) (label : Option String) :
    operands ⟨shape.map r, label⟩ = (operands ⟨shape, label⟩).map r := by
  cases shape with
  | die d => exact congrArg (r d.count :: ·) (Faces.arguments_map r d.faces)
  | diceSum head tail | arithmetic head tail =>
    exact congrArg (r head :: ·) (Nested.map_snd_map_tail r tail)
  | _ => rfl

theorem arguments_map (r : Formula → Formula) (shape : Shape) (label : Option String) :
    arguments ⟨shape.map r, label⟩ = (arguments ⟨shape, label⟩).map r := by
  cases shape with
  | die d =>
    obtain ⟨count, faces, mods, targets, matching, sorting⟩ := d
    cases matching with
    | none => simp [Shape.map, Die.map, Modifier.flatMap_arguments_map]
    | some m =>
      have hm := Matching.arguments_map r m
      simp_all [Shape.map, Die.map, Modifier.flatMap_arguments_map]
  | group first others mods => simp [Shape.map, Modifier.flatMap_arguments_map]
  | _ => rfl

theorem children_map (r : Formula → Formula) (shape : Shape) (label : Option String) :
    Nested.children (⟨shape.map r, label⟩ : Formula) =
      (Nested.children (⟨shape, label⟩ : Formula)).map r := by
  rw [children_eq, children_eq, operands_map, arguments_map, List.map_append]

/-- No label has a part in what stands inside of a formula. -/
theorem children_label (shape : Shape) (label label' : Option String) :
    Nested.children (⟨shape, label⟩ : Formula) = Nested.children (⟨shape, label'⟩ : Formula) := by
  cases shape <;> rfl

end Formula

section Rewriting

variable (g : Formula → Formula)

mutual
/-- A formula rewritten, after all formulas inside of it. -/
def Formula.rewrite : Formula → Formula
  | ⟨shape, label⟩ => g ⟨shape.rewrite, label⟩

def Shape.rewrite : Shape → Shape
  | .number value => .number value
  | .die ⟨count, faces, mods, targets, matching, sorting⟩ =>
    .die ⟨count.rewrite, rewriteFaces faces, rewriteMods mods, rewriteMods targets,
      rewriteMatching matching, sorting⟩
  | .diceSum head tail => .diceSum head.rewrite (rewriteDiceTail tail)
  | .arithmetic head tail => .arithmetic head.rewrite (rewriteMathTail tail)
  | .group first others mods => .group first.rewrite (rewriteMembers others) (rewriteMods mods)
  | .function f argument => .function f argument.rewrite
  | .replacement name argument => .replacement name argument.rewrite
  | .inline inner => .inline inner.rewrite
  | .unknown => .unknown

def rewriteFaces : Faces Formula → Faces Formula
  | .fate => .fate
  | .sides count => .sides count.rewrite

def rewriteTarget : Target Formula → Target Formula
  | ⟨relation, value⟩ => ⟨relation, value.rewrite⟩

def rewriteOptionalTarget : Option (Target Formula) → Option (Target Formula)
  | none => none
  | some t => some (rewriteTarget t)

def rewriteMod : Modifier Formula → Modifier Formula
  | .keep extreme count => .keep extreme count.rewrite
  | .drop extreme count => .drop extreme count.rewrite
  | .success target => .success (rewriteTarget target)
  | .failure target => .failure (rewriteTarget target)
  | .critical target => .critical (rewriteTarget target)
  | .criticalFailure target => .criticalFailure (rewriteTarget target)
  | .explode mode target => .explode mode (rewriteOptionalTarget target)
  | .reroll once target => .reroll once (rewriteOptionalTarget target)
  | .unknown => .unknown

def rewriteMods : List (Modifier Formula) → List (Modifier Formula)
  | [] => []
  | m :: ms => rewriteMod m :: rewriteMods ms

def rewriteMatching : Option (Matching Formula) → Option (Matching Formula)
  | none => none
  | some ⟨least, counted, filter⟩ => some ⟨least.rewrite, counted, rewriteOptionalTarget filter⟩

def rewriteDiceTail : List (Sign × Formula) → List (Sign × Formula)
  | [] => []
  | (op, f) :: rest => (op, f.rewrite) :: rewriteDiceTail rest

def rewriteMathTail : List (Operator × Formula) → List (Operator × Formula)
  | [] => []
  | (op, f) :: rest => (op, f.rewrite) :: rewriteMathTail rest

def rewriteMembers : List Formula → List Formula
  | [] => []
  | f :: fs => f.rewrite :: rewriteMembers fs
end

theorem rewriteFaces_eq (faces : Faces Formula) :
    rewriteFaces g faces = faces.map (Formula.rewrite g) := by
  cases faces <;> rfl

theorem rewriteOptionalTarget_eq (t : Option (Target Formula)) : rewriteOptionalTarget g t =
    t.map fun t => ⟨t.relation, Formula.rewrite g t.value⟩ := by
  rcases t with _ | ⟨relation, value⟩ <;> rfl

theorem rewriteMod_eq (m : Modifier Formula) : rewriteMod g m = m.map (Formula.rewrite g) := by
  cases m with
  | success t | failure t | critical t | criticalFailure t =>
    obtain ⟨relation, value⟩ := t
    rfl
  | explode _ t | reroll _ t => rw [rewriteMod, rewriteOptionalTarget_eq, Modifier.map]
  | _ => rfl

theorem rewriteMods_eq (ms : List (Modifier Formula)) :
    rewriteMods g ms = ms.map (Modifier.map (Formula.rewrite g)) := by
  induction ms with
  | nil => rfl
  | cons m ms ih => rw [rewriteMods, rewriteMod_eq, ih, List.map_cons]

theorem rewriteMatching_eq (m : Option (Matching Formula)) :
    rewriteMatching g m = m.map (Matching.map (Formula.rewrite g)) := by
  cases m with
  | none => rfl
  | some m =>
    obtain ⟨least, counted, filter⟩ := m
    rw [rewriteMatching, rewriteOptionalTarget_eq]
    rfl

theorem rewriteDiceTail_eq (tail : List (Sign × Formula)) :
    rewriteDiceTail g tail = tail.map (Prod.map id (Formula.rewrite g)) := by
  induction tail with
  | nil => rfl
  | cons t tail ih => rw [rewriteDiceTail, ih, List.map_cons, Prod.map, id]

theorem rewriteMathTail_eq (tail : List (Operator × Formula)) :
    rewriteMathTail g tail = tail.map (Prod.map id (Formula.rewrite g)) := by
  induction tail with
  | nil => rfl
  | cons t tail ih => rw [rewriteMathTail, ih, List.map_cons, Prod.map, id]

theorem rewriteMembers_eq (fs : List Formula) :
    rewriteMembers g fs = fs.map (Formula.rewrite g) := by
  induction fs with
  | nil => rfl
  | cons f fs ih => rw [rewriteMembers, ih, List.map_cons]

theorem Shape.rewrite_eq (shape : Shape) : shape.rewrite g = shape.map (Formula.rewrite g) := by
  cases shape with
  | die d => simp only [rewrite, map, Die.map, rewriteFaces_eq, rewriteMods_eq, rewriteMatching_eq]
  | diceSum head tail => rw [rewrite, map, rewriteDiceTail_eq]
  | arithmetic head tail => rw [rewrite, map, rewriteMathTail_eq]
  | group first others mods => rw [rewrite, map, rewriteMembers_eq, rewriteMods_eq]
  | _ => rfl

namespace Formula

theorem rewrite_mk (shape : Shape) (label : Option String) :
    rewrite g ⟨shape, label⟩ = g ⟨shape.map (rewrite g), label⟩ := by
  rw [rewrite, Shape.rewrite_eq]

variable {g}

/-- What rewriting a formula brings about, given that it holds already of everything inside of it,
holds of every part in the end. -/
theorem forall_parts_rewrite {P : Formula → Prop}
    (hg : ∀ f, (∀ c ∈ Nested.children f, ∀ p ∈ Nested.parts c, P p) → ∀ p ∈ Nested.parts (g f), P p)
    (f : Formula) : ∀ p ∈ Nested.parts (f.rewrite g), P p := by
  induction f using Nested.induct with
  | step f ih =>
    obtain ⟨shape, label⟩ := f
    rw [rewrite_mk]
    refine hg _ ?_
    rw [children_map]
    exact List.forall_mem_map.mpr ih

end Formula

end Rewriting

namespace Formula

def isInline (f : Formula) : Bool :=
  match f.shape with
  | .inline _ => true
  | _ => false

/-- An inline formula gives way to what it wraps, to which its own label goes over. -/
def unwrap : Formula → Formula
  | ⟨.inline inner, label⟩ => ⟨inner.shape, label.or inner.label⟩
  | f => f

def unlabel (f : Formula) : Formula :=
  bare f.shape

/-- A formula without the inline formulas at any depth. -/
def unwrapped : Formula → Formula :=
  rewrite unwrap

/-- A formula without the labels at any depth. -/
def unlabelled : Formula → Formula :=
  rewrite unlabel

theorem isInline_of_mem_parts_unwrapped (f : Formula) :
    ∀ p ∈ Nested.parts f.unwrapped, p.isInline = false := by
  refine forall_parts_rewrite (fun f h => ?_) f
  obtain ⟨shape, label⟩ := f
  cases shape with
  | inline inner =>
    obtain ⟨shape, old⟩ := inner
    have hinner := h ⟨shape, old⟩ List.mem_cons_self
    rw [Nested.forall_parts_iff] at hinner
    refine (Nested.forall_parts_iff _).mpr ⟨?_, children_label shape old _ ▸ hinner.2⟩
    exact hinner.1
  | _ => exact (Nested.forall_parts_iff _).mpr ⟨rfl, h⟩

theorem label_of_mem_parts_unlabelled (f : Formula) :
    ∀ p ∈ Nested.parts f.unlabelled, p.label = none := by
  refine forall_parts_rewrite (fun f h => ?_) f
  obtain ⟨shape, label⟩ := f
  exact (Nested.forall_parts_iff _).mpr ⟨rfl, children_label shape label none ▸ h⟩

end Formula

end DiceNotation

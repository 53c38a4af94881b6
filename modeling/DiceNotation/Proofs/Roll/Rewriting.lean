import DiceNotation.Formula.Roll
import DiceNotation.Proofs.Formula.Rewriting
import DiceNotation.Proofs.Outcome.Labels
import DiceNotation.Proofs.Roll.Flattening

/-! Rolls of rewritten formulas. What a formula rolls to is put together from the outcomes and the
values of the formulas right inside of it; where these come to the same, but for their labels, so
does the whole. A roll does not notice that inline formulas are taken apart, and without its labels
a formula rolls to the same but for the labels. -/

namespace DiceNotation

open Play

section Arguments

variable {r : Formula → Formula} {φ : String → Option String}

/-- Rewritten, the formula rolls to the same but for changes of labels. -/
def Formula.RollsAlike (r : Formula → Formula) (φ : String → Option String) (f : Formula) : Prop :=
  (r f).roll = Outcome.mapLabels φ <$> f.roll

theorem Formula.RollsAlike.roll_eq {f : Formula} (h : f.RollsAlike r φ) :
    (r f).roll = Outcome.mapLabels φ <$> f.roll :=
  h

theorem rollTarget_map {t : Target Formula} (h : t.value.RollsAlike r φ) :
    rollTarget ⟨t.relation, r t.value⟩ = rollTarget t := by
  obtain ⟨relation, value⟩ := t
  simp only [rollTarget, h.roll_eq, bind_map_left, Outcome.value_mapLabels]

theorem rollOptionalTarget_map {t : Option (Target Formula)}
    (h : ∀ f ∈ t.toList.map Target.value, f.RollsAlike r φ) :
    rollOptionalTarget (t.map fun t => ⟨t.relation, r t.value⟩) = rollOptionalTarget t := by
  cases t with
  | none => rfl
  | some t =>
    rw [Option.map_some, rollOptionalTarget, rollOptionalTarget,
      rollTarget_map (h t.value List.mem_cons_self)]

theorem rollModifier_map {m : Modifier Formula} (h : ∀ f ∈ m.arguments, f.RollsAlike r φ) :
    rollModifier (m.map r) = rollModifier m := by
  cases m with
  | keep _ count | drop _ count =>
    simp only [Modifier.map, rollModifier, (h count List.mem_cons_self).roll_eq, bind_map_left,
      Outcome.value_mapLabels]
  | success t | failure t | critical t | criticalFailure t =>
    rw [Modifier.map, rollModifier, rollModifier, rollTarget_map (h t.value List.mem_cons_self)]
  | explode _ t | reroll _ t =>
    rw [Modifier.map, rollModifier, rollModifier, rollOptionalTarget_map h]
  | unknown => rfl

theorem rollMods_map {ms : List (Modifier Formula)}
    (h : ∀ f ∈ ms.flatMap Modifier.arguments, f.RollsAlike r φ) (ts : List Throw) :
    rollMods (ms.map (Modifier.map r)) ts = rollMods ms ts := by
  induction ms generalizing ts with
  | nil => rfl
  | cons m ms ih =>
    obtain ⟨hm, hms⟩ := List.forall_mem_append.mp h
    simp only [List.map_cons, rollMods, rollModifier_map hm, ih hms]

theorem name_map {α β : Type} (f : α → β) (m : Modifier α) : (m.map f).name = m.name := by
  cases m with
  | reroll once _ => cases once <;> rfl
  | _ => rfl

theorem rollGroupMods_map {ms : List (Modifier Formula)}
    (h : ∀ f ∈ ms.flatMap Modifier.arguments, f.RollsAlike r φ) (es : List Entry) :
    rollGroupMods (ms.map (Modifier.map r)) es = rollGroupMods ms es := by
  induction ms generalizing es with
  | nil => rfl
  | cons m ms ih =>
    obtain ⟨hm, hms⟩ := List.forall_mem_append.mp h
    simp only [List.map_cons, rollGroupMods, isForGroups_map, name_map, rollModifier_map hm,
      ih hms]

theorem rollMatching_map {matching : Option (Matching Formula)}
    (h : ∀ f ∈ matching.toList.flatMap Matching.arguments, f.RollsAlike r φ) :
    rollMatching (matching.map (Matching.map r)) = rollMatching matching := by
  cases matching with
  | none => rfl
  | some matching =>
    obtain ⟨least, counted, filter⟩ := matching
    rw [Option.toList_some, List.flatMap_singleton, Matching.arguments] at h
    obtain ⟨hleast, hfilter⟩ := List.forall_mem_cons.mp h
    simp only [Option.map_some, Matching.map, rollMatching, hleast.roll_eq,
      rollOptionalTarget_map hfilter, bind_map_left, Outcome.value_mapLabels]

end Arguments

section Operands

variable {r : Formula → Formula} {φ : String → Option String}

theorem rollFaces_map {faces : Faces Formula} (h : ∀ f ∈ faces.arguments, f.RollsAlike r φ) :
    rollFaces (faces.map r) = Prod.map (mapFacesLabels φ) id <$> rollFaces faces := by
  cases faces with
  | fate => rfl
  | sides count =>
    have hcount := (h count List.mem_cons_self).roll_eq
    simp only [Faces.map, rollFaces, hcount, bind_map_left, map_bind, map_pure,
      Outcome.value_mapLabels]
    rfl

theorem rollDiceTail_map {tail : List (Sign × Formula)}
    (h : ∀ f ∈ tail.map Prod.snd, f.RollsAlike r φ) (value : Number) (order : Nat) :
    rollDiceTail (tail.map (Prod.map id r)) value order =
      Prod.map (mapDiceTailLabels φ) id <$> rollDiceTail tail value order := by
  induction tail generalizing value order with
  | nil => rfl
  | cons t tail ih =>
    obtain ⟨op, f⟩ := t
    obtain ⟨hf, htail⟩ := List.forall_mem_cons.mp h
    simp only [List.map_cons, Prod.map, id, rollDiceTail, hf.roll_eq, ih htail, bind_map_left,
      map_bind, map_pure, Outcome.value_mapLabels, mapDiceTailLabels, Outcome.mapLabels_place]

theorem rollMathTail_map {tail : List (Operator × Formula)}
    (h : ∀ f ∈ tail.map Prod.snd, f.RollsAlike r φ) (value : Number) (order : Nat) :
    rollMathTail (tail.map (Prod.map id r)) value order =
      Prod.map (mapMathTailLabels φ) id <$> rollMathTail tail value order := by
  induction tail generalizing value order with
  | nil => rfl
  | cons t tail ih =>
    obtain ⟨op, f⟩ := t
    obtain ⟨hf, htail⟩ := List.forall_mem_cons.mp h
    simp only [List.map_cons, Prod.map, id, rollMathTail, hf.roll_eq, ih htail, bind_map_left,
      map_bind, map_pure, Outcome.value_mapLabels, mapMathTailLabels, Outcome.mapLabels_place]

theorem rollMembers_map {fs : List Formula} (h : ∀ f ∈ fs, f.RollsAlike r φ) (order : Nat) :
    rollMembers (fs.map r) order = List.map (Outcome.mapLabels φ) <$> rollMembers fs order := by
  induction fs generalizing order with
  | nil => rfl
  | cons f fs ih =>
    obtain ⟨hf, hfs⟩ := List.forall_mem_cons.mp h
    simp only [List.map_cons, rollMembers, hf.roll_eq, bind_map_left, map_bind, map_pure, ih hfs,
      Outcome.mapLabels_place]

end Operands

section Shapes

variable {r : Formula → Formula} {φ : String → Option String}

theorem rollDie_map {d : Die Formula} {label : Option String}
    (hoperands : ∀ f ∈ Formula.operands ⟨.die d, label⟩, f.RollsAlike r φ)
    (harguments : ∀ f ∈ Formula.arguments ⟨.die d, label⟩, f.RollsAlike r φ) :
    (Shape.roll (.die (d.map r))) = Outcome.mapLabels φ <$> Shape.roll (.die d) := by
  obtain ⟨hcount, hfaces⟩ := List.forall_mem_cons.mp hoperands
  obtain ⟨hmods, hmatching⟩ := List.forall_mem_append.mp harguments
  rw [Formula.modifiers, List.flatMap_append] at hmods
  obtain ⟨hmods, htargets⟩ := List.forall_mem_append.mp hmods
  rw [Formula.matching?] at hmatching
  obtain ⟨count, faces, mods, targets, matching, sorting⟩ := d
  simp only [Die.map, Shape.roll, hcount.roll_eq, rollFaces_map hfaces, rollMods_map hmods,
    rollMods_map htargets, rollMatching_map hmatching, List.isEmpty_map, bind_map_left, map_bind,
    map_pure, Outcome.value_mapLabels, Outcome.mapLabels_ofDie, Prod.map, id]

theorem rollGroup_map {first : Formula} {others : List Formula} {mods : List (Modifier Formula)}
    (hfirst : first.RollsAlike r φ) (hothers : ∀ f ∈ others, f.RollsAlike r φ)
    (hmods : ∀ f ∈ mods.flatMap Modifier.arguments, f.RollsAlike r φ) :
    Shape.roll (.group (r first) (others.map r) (mods.map (Modifier.map r))) =
      Outcome.mapLabels φ <$> Shape.roll (.group first others mods) := by
  simp only [Shape.roll, hfirst.roll_eq, rollMembers_map hothers, rollGroupMods_map hmods,
    List.isEmpty_map, Modifier.any_isTarget_map, bind_map_left, map_bind, ← List.map_cons,
    Outcome.entries_map_mapLabels]
  refine bind_congr fun first => bind_congr fun others => ?_
  split
  · simp only [map_pure, Outcome.mapLabels_ofMembers]
  · simp only [map_bind, map_pure, Outcome.mapLabels_ofGroup]

/-- A shape rolls to the same but for labels where everything right inside of it does. -/
theorem Shape.roll_map (shape : Shape) (label : Option String)
    (h : ∀ f ∈ Nested.children (⟨shape, label⟩ : Formula), f.RollsAlike r φ) :
    (shape.map r).roll = Outcome.mapLabels φ <$> shape.roll := by
  rw [Formula.children_eq] at h
  obtain ⟨hoperands, harguments⟩ := List.forall_mem_append.mp h
  cases shape with
  | number value => rfl
  | die d => exact rollDie_map hoperands harguments
  | diceSum head tail =>
    obtain ⟨hhead, htail⟩ := List.forall_mem_cons.mp hoperands
    simp only [Shape.map, Shape.roll, hhead.roll_eq, rollDiceTail_map htail, bind_map_left,
      map_bind, map_pure, Outcome.value_mapLabels]
    rfl
  | arithmetic head tail =>
    obtain ⟨hhead, htail⟩ := List.forall_mem_cons.mp hoperands
    simp only [Shape.map, Shape.roll, hhead.roll_eq, rollMathTail_map htail, bind_map_left,
      map_bind, map_pure, Outcome.value_mapLabels]
    rfl
  | group first others mods =>
    obtain ⟨hfirst, hothers⟩ := List.forall_mem_cons.mp hoperands
    exact rollGroup_map hfirst hothers (List.forall_mem_append.mp harguments).1
  | function _ argument | replacement _ argument =>
    have hargument := (hoperands argument List.mem_cons_self).roll_eq
    simp only [Shape.map, Shape.roll, hargument, bind_map_left, map_bind, map_pure,
      Outcome.value_mapLabels]
    rfl
  | inline inner => exact hoperands inner List.mem_cons_self
  | unknown => rfl

end Shapes

namespace Formula

variable {g : Formula → Formula} {φ : String → Option String}

/-- A formula rewritten from the inside out rolls to the same but for labels, if that is so of the
last rewriting given that it is so of all before. -/
theorem rollsAlike_rewrite
    (hg : ∀ shape shape' label, shape'.roll = Outcome.mapLabels φ <$> shape.roll →
      (g ⟨shape', label⟩).roll = Outcome.mapLabels φ <$> roll ⟨shape, label⟩) (f : Formula) :
    f.RollsAlike (rewrite g) φ := by
  induction f using Nested.induct with
  | step f ih =>
    obtain ⟨shape, label⟩ := f
    rw [RollsAlike, rewrite_mk]
    exact hg _ _ label (shape.roll_map label ih)

theorem roll_mk (shape : Shape) (label : Option String) :
    roll ⟨shape, label⟩ = (fun o => o.relabel label) <$> shape.roll := by
  rw [roll, bind_pure_comp]

theorem roll_unwrap (f : Formula) : f.unwrap.roll = f.roll := by
  obtain ⟨shape, label⟩ := f
  cases shape with
  | inline inner =>
    obtain ⟨shape, old⟩ := inner
    simp only [unwrap, roll_mk, Shape.roll, Functor.map_map]
    refine map_congr fun o => ?_
    cases label with
    | none => rfl
    | some label => cases old <;> rfl
  | _ => rfl

theorem roll_unwrapped (f : Formula) : f.unwrapped.roll = f.roll := by
  have hkept {p : Play Outcome} : Outcome.mapLabels some <$> p = p :=
    (map_congr Outcome.mapLabels_some).trans (id_map p)
  have h : f.RollsAlike (rewrite unwrap) some :=
    rollsAlike_rewrite (fun shape shape' label h => by
      rw [roll_unwrap, hkept, roll_mk, roll_mk, h, hkept]) f
  exact h.roll_eq.trans hkept

/-- A label that comes off the formula would have come off the outcome. -/
theorem roll_unlabelled (f : Formula) : f.unlabelled.roll = Outcome.unlabelled <$> f.roll := by
  refine rollsAlike_rewrite (fun shape shape' label h => ?_) f
  have hrelabel : (Outcome.unlabelled <$> (fun o => o.relabel label) <$> shape.roll) =
      Outcome.unlabelled <$> shape.roll := by
    rw [Functor.map_map]
    exact map_congr fun o => Outcome.unlabelled_relabel o label
  rw [unlabel, bare, roll_mk, roll_mk]
  exact (id_map shape'.roll).trans (h.trans hrelabel.symm)

/-- Inline formulas and labels have no part in a roll. Without the inline formulas at any depth, a
formula rolls to the same outcome, or to the same fault, at any table and with the same draws; and
so it does without its labels, but for the labels of the outcome. -/
theorem roll_unwrapped_unlabelled (f : Formula) :
    ((∀ p ∈ Nested.parts f.unwrapped, p.isInline = false) ∧ f.unwrapped.roll = f.roll) ∧
      (∀ p ∈ Nested.parts f.unlabelled, p.label = none) ∧
      Outcome.unlabelled <$> f.unlabelled.roll = Outcome.unlabelled <$> f.roll := by
  refine ⟨⟨isInline_of_mem_parts_unwrapped f, roll_unwrapped f⟩,
    label_of_mem_parts_unlabelled f, ?_⟩
  rw [roll_unlabelled, Functor.map_map]
  exact map_congr Outcome.unlabelled_unlabelled

end Formula

end DiceNotation

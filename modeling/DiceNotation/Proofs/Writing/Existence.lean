import DiceNotation.Proofs.Writing.Derived

/-! A writing for every formula that can be written. The parts of a formula have theirs, and the targets
of a die go before its modifiers, where nothing takes them up. -/

namespace DiceNotation

namespace Writing

variable {A : Die Formula → List Addition → Prop}

/-- There is a way to write the formula. -/
def Has (A : Die Formula → List Addition → Prop) (f : Formula) : Prop :=
  ∃ ws, OfFormula A f ws

section Parts

variable {f : Formula} {t : Target Formula} {m : Modifier Formula} {x : Addition}

theorem exists_enclosed (h : Has A f) : ∃ ws, Enclosed A f ws := by
  obtain ⟨ws, h⟩ := h
  exact ⟨_, .mk h⟩

theorem exists_comparison (h : Has A t.value) : ∃ ws, OfComparison A t ws := by
  obtain ⟨ws, h⟩ := exists_enclosed h
  have hword : t.relation.symbol ∈ t.relation.words := by cases t.relation <;> decide
  exact ⟨_, .mk hword h⟩

theorem exists_target (h : Has A t.value) : ∃ ws, OfTarget A t ws := by
  obtain ⟨ws, h⟩ := exists_comparison h
  exact ⟨ws, .compared h⟩

theorem exists_modifier (hm : m.isForDice = true) (h : ∀ f ∈ m.arguments, Has A f) :
    ∃ ws, OfModifier A m ws := by
  cases m with
  | keep extreme f =>
    obtain ⟨ws, h⟩ := exists_enclosed (h f List.mem_cons_self)
    have hword : "k" ++ extreme.symbol ∈ extreme.keepWords := by cases extreme <;> decide
    exact ⟨_, .keep hword h⟩
  | drop extreme f =>
    obtain ⟨ws, h⟩ := exists_enclosed (h f List.mem_cons_self)
    have hword : "d" ++ extreme.symbol ∈ extreme.dropWords := by cases extreme <;> decide
    exact ⟨_, .drop hword h⟩
  | success t =>
    obtain ⟨ws, h⟩ := exists_comparison (h t.value List.mem_cons_self)
    exact ⟨_, .success h⟩
  | failure t =>
    obtain ⟨ws, h⟩ := exists_target (h t.value List.mem_cons_self)
    exact ⟨_, .failure h⟩
  | critical t =>
    obtain ⟨ws, h⟩ := exists_target (h t.value List.mem_cons_self)
    exact ⟨_, .critical h⟩
  | criticalFailure t =>
    obtain ⟨ws, h⟩ := exists_target (h t.value List.mem_cons_self)
    exact ⟨_, .criticalFailure h⟩
  | explode mode t =>
    cases t with
    | none => exact ⟨_, .explode mode⟩
    | some t =>
      obtain ⟨ws, h⟩ := exists_target (h t.value List.mem_cons_self)
      exact ⟨_, .explodeOn mode h⟩
  | reroll once t =>
    cases t with
    | none => exact ⟨_, .reroll once⟩
    | some t =>
      obtain ⟨ws, h⟩ := exists_target (h t.value List.mem_cons_self)
      exact ⟨_, .rerollOn once h⟩
  | unknown => cases hm

theorem exists_addition (hx : ∀ m ∈ x.modifiers, m.isForDice = true)
    (h : ∀ f ∈ x.arguments, Has A f) : ∃ ws, OfAddition A x ws := by
  cases x with
  | modifier m =>
    obtain ⟨ws, h⟩ := exists_modifier (hx m List.mem_cons_self) h
    exact ⟨ws, .modifier h⟩
  | sorting order =>
    have hword : ∃ word, word ∈ order.words := by
      cases order
      · exact ⟨"s", by decide⟩
      · exact ⟨"sd", by decide⟩
    obtain ⟨word, hword⟩ := hword
    exact ⟨_, .sorting hword⟩
  | matching m =>
    obtain ⟨f, counted, filter⟩ := m
    obtain ⟨hf, hfilter⟩ := List.forall_mem_cons.mp h
    obtain ⟨ws, hf⟩ := exists_enclosed hf
    cases filter with
    | none => exact ⟨_, .matching counted hf⟩
    | some t =>
      obtain ⟨vs, ht⟩ := exists_comparison (hfilter t.value List.mem_cons_self)
      exact ⟨_, .filtered counted hf ht⟩

theorem exists_additions {xs : List Addition} (h : ∀ x ∈ xs, ∃ ws, OfAddition A x ws) :
    ∃ ws, OfAdditions A xs ws := by
  induction xs with
  | nil => exact ⟨_, .nil⟩
  | cons x xs ih =>
    obtain ⟨hx, hxs⟩ := List.forall_mem_cons.mp h
    obtain ⟨ws, hx⟩ := hx
    obtain ⟨vs, hxs⟩ := ih hxs
    exact ⟨_, .cons hx hxs⟩

theorem exists_faces {s : Faces Formula} (h : ∀ f ∈ s.arguments, Has A f) :
    ∃ ws, OfFaces A s ws := by
  cases s with
  | fate => exact ⟨_, .fate⟩
  | sides f =>
    obtain ⟨ws, h⟩ := exists_enclosed (h f List.mem_cons_self)
    exact ⟨ws, .sides h⟩

theorem exists_tail {tail : List (String × Formula)} (h : ∀ f ∈ tail.map Prod.snd, Has A f) :
    ∃ ws, OfTail A tail ws := by
  induction tail with
  | nil => exact ⟨_, .nil⟩
  | cons t tail ih =>
    obtain ⟨word, f⟩ := t
    obtain ⟨hf, htail⟩ := List.forall_mem_cons.mp h
    obtain ⟨ws, hf⟩ := exists_enclosed hf
    obtain ⟨vs, htail⟩ := ih htail
    exact ⟨_, .cons hf htail⟩

end Parts

section Formulas

theorem isForDice_of_proper {d : Die Formula} (h : (Shape.die d).Proper) :
    ∀ m ∈ d.mods ++ d.targets, m.isForDice = true := by
  have hknown : (Formula.die d).Known := Formula.Proper.known (f := .die d) ⟨h, nofun⟩
  exact hknown

theorem has_die {d : Die Formula} (hproper : (Shape.die d).Proper)
    (hoperands : ∀ f ∈ (Formula.die d).operands, Has Die.Arranged f)
    (harguments : ∀ f ∈ (Formula.die d).arguments, Has Die.Arranged f) :
    Has Die.Arranged (.die d) := by
  obtain ⟨hcount, hfaces⟩ := List.forall_mem_cons.mp hoperands
  have harranged := Die.arranged_targetsFirst hproper
  obtain ⟨ws, hcount⟩ := exists_enclosed hcount
  obtain ⟨vs, hfaces⟩ := exists_faces hfaces
  obtain ⟨us, hadditions⟩ : ∃ us, OfAdditions Die.Arranged d.targetsFirst us := by
    refine exists_additions fun x hx => exists_addition (fun m hm => ?_) fun f hf => ?_
    · exact isForDice_of_proper hproper m (harranged.modifiers hx m hm)
    · exact harguments f (harranged.arguments hx f hf)
  exact ⟨_, .die hcount hfaces harranged hadditions⟩

theorem has_group {first : Formula} {others : List Formula} {mods : List (Modifier Formula)}
    (hproper : (Shape.group first others mods).Proper)
    (hoperands : ∀ f ∈ (Formula.bare (.group first others mods)).operands, Has A f)
    (harguments : ∀ f ∈ (Formula.bare (.group first others mods)).arguments, Has A f) :
    Has A (.bare (.group first others mods)) := by
  obtain ⟨hfirst, hothers⟩ := List.forall_mem_cons.mp hoperands
  obtain ⟨ws, hfirst⟩ := exists_enclosed hfirst
  obtain ⟨vs, hothers⟩ : ∃ vs, OfTail A (others.map fun f => (",", f)) vs :=
    exists_tail (by simpa using hothers)
  obtain ⟨us, hmods⟩ : ∃ us, OfAdditions A (mods.map Addition.modifier) us := by
    refine exists_additions (List.forall_mem_map.mpr fun m hm => ?_)
    have hknown : m.isForDice = true := by
      have hgroup := hproper m hm
      cases m <;> first | rfl | cases hgroup
    refine exists_addition (List.forall_mem_singleton.mpr hknown) fun f hf => harguments f ?_
    exact List.mem_append_left _ (List.mem_flatMap.mpr ⟨m, hm, hf⟩)
  exact ⟨_, .group hfirst hothers hmods⟩

/-- Every formula that can be written is. -/
theorem has_of_writable {f : Formula} (hf : f.Writable) : Has Die.Arranged f := by
  induction f using Nested.induct with
  | step f ih =>
    obtain ⟨⟨hproper, hlegible, -⟩, hoperands, harguments⟩ := f.writable_iff.mp hf
    replace hoperands : ∀ g ∈ f.operands, Has Die.Arranged g := fun g hg =>
      ih g (List.mem_append_left _ hg) (hoperands g hg)
    replace harguments : ∀ g ∈ f.arguments, Has Die.Arranged g := fun g hg =>
      ih g (List.mem_append_right _ hg) (harguments g hg)
    clear ih
    obtain ⟨shape, label⟩ := f
    have hbare : Has Die.Arranged (.bare shape) := by
      cases shape with
      | number value =>
        obtain ⟨i, rfl⟩ := Number.exists_of_isInt hlegible
        exact ⟨_, .number i⟩
      | die d => exact has_die hproper.1 hoperands harguments
      | diceSum head tail | arithmetic head tail =>
        obtain ⟨hhead, htail⟩ := List.forall_mem_cons.mp hoperands
        obtain ⟨ws, hhead⟩ := exists_enclosed hhead
        obtain ⟨vs, htail⟩ : ∃ vs, OfTail Die.Arranged (tail.map fun t => (t.1.symbol, t.2)) vs :=
          exists_tail (by simpa using htail)
        first | exact ⟨_, .diceSum hhead htail⟩ | exact ⟨_, .arithmetic hhead htail⟩
      | group first others mods => exact has_group hproper.1 hoperands harguments
      | function g f =>
        obtain ⟨ws, h⟩ := exists_enclosed (hoperands f List.mem_cons_self)
        exact ⟨_, .function g h⟩
      | replacement name f =>
        obtain ⟨ws, h⟩ := exists_enclosed (hoperands f List.mem_cons_self)
        exact ⟨_, .replacement name h⟩
      | inline f =>
        obtain ⟨ws, h⟩ := hoperands f List.mem_cons_self
        exact ⟨_, .inline h⟩
      | unknown => exact hproper.1.elim
    cases label with
    | none => exact hbare
    | some label =>
      obtain ⟨ws, h⟩ := exists_enclosed hbare
      exact ⟨_, .labeled label h⟩

end Formulas

end Writing

end DiceNotation

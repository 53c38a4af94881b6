import DiceNotation.Proofs.Roll.Orderly

/-! What holds all through an outcome. After a part has been rolled it may be placed, labelled and
revised by the group that it is in, and nothing else is ever done to it; so what every part has as it
is rolled, and does not lose by any of that, holds of all parts of an outcome. -/

namespace DiceNotation

open Play Nested

namespace Outcome

/-- What may be done to an outcome that has been rolled does not take the property away. -/
structure Lasting (P : Outcome → Prop) : Prop where
  place : ∀ o order, P o → P (o.place order)
  relabel : ∀ o label, P o → P (o.relabel label)
  revise : ∀ o o', Revised o o' → P o → P o'

def Throughout (P : Outcome → Prop) (o : Outcome) : Prop :=
  ∀ p ∈ Nested.parts o, P p

variable {P : Outcome → Prop}

theorem throughout_iff (o : Outcome) :
    o.Throughout P ↔ P o ∧ ∀ c ∈ o.operands, c.Throughout P :=
  forall_parts_iff o

theorem throughout_relabel (hP : Lasting P) {o : Outcome} (h : o.Throughout P)
    (label : Option String) : (o.relabel label).Throughout P := by
  rw [throughout_iff] at h ⊢
  rw [operands_relabel]
  exact ⟨hP.relabel o label h.1, h.2⟩

theorem throughout_placeFrom (hP : Lasting P) {os : List Outcome} (h : ∀ o ∈ os, o.Throughout P)
    (order : Nat) : ∀ o ∈ placeFrom order os, o.Throughout P := by
  induction os generalizing order with
  | nil => exact List.forall_mem_nil _
  | cons o os ih =>
    obtain ⟨ho, hos⟩ := List.forall_mem_cons.mp h
    refine List.forall_mem_cons.mpr ⟨?_, ih hos (order + 1)⟩
    rw [throughout_iff] at ho ⊢
    rw [operands_place]
    exact ⟨hP.place o order ho.1, ho.2⟩

mutual
theorem throughout_of_revised (hP : Lasting P) : {o o' : Outcome} → Revised o o' →
    o.Throughout P → o'.Throughout P
  | _, _, .die order throws, h => by
    rw [throughout_iff] at h ⊢
    exact ⟨hP.revise _ _ (.die order throws) h.1, h.2⟩
  | _, ⟨_, body, _⟩, .status order value, h => by
    rw [throughout_iff] at h ⊢
    refine ⟨hP.revise _ _ (.status order value) h.1, ?_⟩
    cases body <;> exact h.2
  | _, _, .diceSum order first others, h => by
    rw [throughout_iff] at h ⊢
    obtain ⟨hhead, htail⟩ := List.forall_mem_cons.mp h.2
    exact ⟨hP.revise _ _ (.diceSum order first others) h.1, List.forall_mem_cons.mpr
      ⟨throughout_of_revised hP first hhead, throughout_of_revisedTail hP others htail⟩⟩

theorem throughout_of_revisedTail (hP : Lasting P) : {tail tail' : List (Sign × Outcome)} →
    RevisedTail tail tail' → (∀ o ∈ tail.map Prod.snd, o.Throughout P) →
    ∀ o ∈ tail'.map Prod.snd, o.Throughout P
  | _, _, .nil, h => h
  | _, _, .cons first others, h => by
    rw [List.map_cons, List.forall_mem_cons] at h ⊢
    exact ⟨throughout_of_revised hP first h.1, throughout_of_revisedTail hP others h.2⟩
end

theorem forall_throughout_of_revised (hP : Lasting P) {members members' : List Outcome}
    (h : List.Forall₂ Revised members members') (hmembers : ∀ o ∈ members, o.Throughout P) :
    ∀ o ∈ members', o.Throughout P := by
  induction h with
  | nil => exact hmembers
  | cons first _ ih =>
    rw [List.forall_mem_cons] at hmembers ⊢
    exact ⟨throughout_of_revised hP first hmembers.1, ih hmembers.2⟩

theorem throughout_operands_ofGroup (hP : Lasting P) {members : List Outcome} {hasTargets : Bool}
    {ss : List Status} (hss : List.Forall₂ (Status.Marks true) (entries members) ss)
    (h : ∀ o ∈ members, o.Throughout P) :
    ∀ c ∈ (ofGroup members hasTargets ss).operands, c.Throughout P := by
  obtain ⟨members', hrevised, hbody⟩ := body_ofGroup hasTargets hss
  have hmembers := forall_throughout_of_revised hP hrevised h
  generalize ofGroup members hasTargets ss = o at hbody ⊢
  obtain ⟨status, body, label⟩ := o
  obtain rfl : body = .group members' := hbody
  exact hmembers

end Outcome

section Roll

open Outcome

variable {table : Table} {P : Outcome → Prop} {n : Nat}

/-- What is rolled of one formula, wherever the source stands. -/
def Formula.RollsThroughout (table : Table) (P : Outcome → Prop) (f : Formula) : Prop :=
  ∀ n, f.roll.Gives table n fun o _ => o.Throughout P

open Formula (RollsThroughout)

theorem forall_of_rolled {R : Outcome → Prop} {fs : List Formula} {os : List Outcome} {n m : Nat}
    (h : Rolled (fun _ _ o _ => R o) fs n os m) : ∀ o ∈ os, R o := by
  induction h with
  | nil => exact List.forall_mem_nil _
  | cons first _ ih => exact List.forall_mem_cons.mpr ⟨first, ih⟩

/-- The first of several formulas stands where it is rolled, and the others are put behind it. -/
theorem throughout_placed (hP : Lasting P) {o : Outcome} (ho : o.Throughout P) {fs : List Formula}
    {os : List Outcome} {k m : Nat} (hos : Rolled (fun _ _ o _ => o.Throughout P) fs k os m) :
    ∀ c ∈ o :: placeFrom 1 os, c.Throughout P :=
  List.forall_mem_cons.mpr ⟨ho, throughout_placeFrom hP (forall_of_rolled hos) 1⟩

theorem gives_operands_die {d : Die Formula} (hcount : RollsThroughout table P d.count)
    (hfaces : ∀ f ∈ d.faces.arguments, RollsThroughout table P f) :
    (Shape.die d).roll.Gives table n fun o _ => ∀ c ∈ o.operands, c.Throughout P := by
  simp only [Shape.roll, bind_pure_comp, gives_bind, gives_map, operands_ofDie]
  refine (hcount n).mono fun count k hcount => (gives_trivial _).mono fun size k _ => ?_
  refine (gives_rollFaces hfaces).mono fun r k hr => ?_
  have hall : ∀ c ∈ count :: r.1.toList, c.Throughout P :=
    List.forall_mem_cons.mpr ⟨hcount, forall_of_rolled hr⟩
  refine (gives_trivial _).mono fun _ k _ => (gives_trivial _).mono fun _ k _ => ?_
  exact (gives_trivial _).mono fun _ k _ => (gives_trivial _).mono fun _ k _ => hall

theorem gives_operands_group (hP : Lasting P) {first : Formula} {others : List Formula}
    {mods : List (Modifier Formula)} (hfirst : RollsThroughout table P first)
    (hothers : ∀ f ∈ others, RollsThroughout table P f) :
    (Shape.group first others mods).roll.Gives table n fun o _ =>
      ∀ c ∈ o.operands, c.Throughout P := by
  simp only [Shape.roll, bind_pure_comp, gives_bind]
  refine (hfirst n).mono fun o k ho => (gives_rollMembers hothers 1).mono fun os k hos => ?_
  obtain ⟨ps, hps, rfl⟩ := hos
  have hmembers := throughout_placed hP ho hps
  split
  · rw [gives_pure]
    exact hmembers
  · rw [gives_map]
    exact (gives_rollGroupMods_marks mods _).mono fun es k hes =>
      throughout_operands_ofGroup hP hes hmembers

/-- A shape that is rolled by itself; an inline formula rolls as what is in it. -/
def Shape.IsOwn : Shape → Prop
  | .inline _ => False
  | _ => True

theorem gives_operands (hP : Lasting P) {shape : Shape} {label : Option String} (hown : shape.IsOwn)
    (h : ∀ g ∈ (⟨shape, label⟩ : Formula).operands, RollsThroughout table P g) :
    shape.roll.Gives table n fun o _ => ∀ c ∈ o.operands, c.Throughout P := by
  cases shape with
  | number value =>
    rw [Shape.roll, gives_pure]
    exact List.forall_mem_nil _
  | die d =>
    obtain ⟨hcount, hfaces⟩ := List.forall_mem_cons.mp h
    exact gives_operands_die hcount hfaces
  | diceSum head tail =>
    obtain ⟨hhead, htail⟩ := List.forall_mem_cons.mp h
    simp only [Shape.roll, bind_pure_comp, gives_bind, gives_map]
    refine (hhead n).mono fun o k ho => (gives_rollDiceTail htail o.value 1).mono fun r k hr => ?_
    obtain ⟨ps, hps, hr⟩ := hr
    have hplaced := throughout_placed hP ho hps
    rwa [← hr] at hplaced
  | arithmetic head tail =>
    obtain ⟨hhead, htail⟩ := List.forall_mem_cons.mp h
    simp only [Shape.roll, bind_pure_comp, gives_bind, gives_map]
    refine (hhead n).mono fun o k ho => (gives_rollMathTail htail o.value 1).mono fun r k hr => ?_
    obtain ⟨ps, hps, hr⟩ := hr
    have hplaced := throughout_placed hP ho hps
    rwa [← hr] at hplaced
  | group first others mods =>
    obtain ⟨hfirst, hothers⟩ := List.forall_mem_cons.mp h
    exact gives_operands_group hP hfirst hothers
  | function f argument =>
    simp only [Shape.roll, bind_pure_comp, gives_map]
    exact (h argument List.mem_cons_self n).mono fun o k ho => List.forall_mem_singleton.mpr ho
  | replacement name argument =>
    simp only [Shape.roll, bind_pure_comp, gives_bind, gives_map]
    refine (h argument List.mem_cons_self n).mono fun o k ho => ?_
    exact (gives_trivial _).mono fun value k _ => List.forall_mem_singleton.mpr ho
  | inline inner => exact hown.elim
  | unknown => simp [Shape.roll]

/-- What every shape has as it is rolled, every part of an outcome has. -/
theorem rolls_throughout (hP : Lasting P)
    (hroll : ∀ (shape : Shape) (n : Nat), shape.IsOwn → shape.roll.Gives table n fun o _ => P o)
    (f : Formula) : RollsThroughout table P f := by
  induction f using Nested.induct with
  | step f ih =>
    have hoperands : ∀ g ∈ f.operands, RollsThroughout table P g := fun g hg =>
      ih g (List.mem_append_left _ hg)
    clear ih
    obtain ⟨shape, label⟩ := f
    intro n
    simp only [Formula.roll, bind_pure_comp, gives_map]
    have hshape : shape.roll.Gives table n fun o _ => o.Throughout P := by
      by_cases hown : shape.IsOwn
      · exact ((hroll shape n hown).and (gives_operands hP hown hoperands)).mono fun o k h =>
          (throughout_iff o).mpr h
      · cases shape with
        | inline inner =>
          rw [Shape.roll]
          exact hoperands inner List.mem_cons_self n
        | _ => exact absurd trivial hown
    exact hshape.mono fun o k ho => throughout_relabel hP ho label

/-- A body of the form that a shape is rolled to. -/
def Shape.Forms : Shape → Body → Prop
  | .number _, .number | .die _, .die .. | .diceSum .., .diceSum ..
  | .arithmetic .., .arithmetic .. | .group .., .group .. | .function .., .function ..
  | .replacement .., .replacement .. => True
  | _, _ => False

theorem body_ofGroup_forms {first : Formula} {others : List Formula}
    {mods : List (Modifier Formula)} (members : List Outcome) (hasTargets : Bool)
    (ss : List Status) :
    (Shape.group first others mods).Forms (ofGroup members hasTargets ss).body := by
  cases hasTargets <;> trivial

theorem gives_forms {shape : Shape} (hown : shape.IsOwn) :
    shape.roll.Gives table n fun o _ => shape.Forms o.body := by
  cases shape with
  | number value =>
    rw [Shape.roll, gives_pure]
    trivial
  | die d =>
    simp only [Shape.roll, bind_pure_comp, gives_bind, gives_map]
    refine (gives_trivial _).mono fun _ k _ => (gives_trivial _).mono fun _ k _ => ?_
    refine (gives_trivial _).mono fun _ k _ => (gives_trivial _).mono fun _ k _ => ?_
    refine (gives_trivial _).mono fun _ k _ => (gives_trivial _).mono fun _ k _ => ?_
    exact (gives_trivial _).mono fun _ k _ => trivial
  | diceSum head tail | arithmetic head tail =>
    simp only [Shape.roll, bind_pure_comp, gives_bind, gives_map]
    exact (gives_trivial _).mono fun _ k _ => (gives_trivial _).mono fun _ k _ => trivial
  | group first others mods =>
    simp only [Shape.roll, bind_pure_comp, gives_bind]
    refine (gives_trivial _).mono fun o k _ => (gives_trivial _).mono fun os k _ => ?_
    split
    · rw [gives_pure]
      trivial
    · rw [gives_map]
      exact (gives_trivial _).mono fun es k _ => body_ofGroup_forms _ _ _
  | function f argument =>
    simp only [Shape.roll, bind_pure_comp, gives_map]
    exact (gives_trivial _).mono fun o k _ => trivial
  | replacement name argument =>
    simp only [Shape.roll, bind_pure_comp, gives_bind, gives_map]
    exact (gives_trivial _).mono fun o k _ => (gives_trivial _).mono fun value k _ => trivial
  | inline inner => exact hown.elim
  | unknown => simp [Shape.roll]

end Roll

end DiceNotation

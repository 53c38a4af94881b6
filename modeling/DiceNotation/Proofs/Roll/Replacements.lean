import DiceNotation.Proofs.Formula.Mentions
import DiceNotation.Proofs.Roll.Throughout

/-! What replacements come to. A replacement looks its name up on the table and rolls as its argument
does; it is worth what the transform makes of the value of that, and stays so wherever it ends up in
an outcome, since the modifiers of a group change no value of an entry. -/

namespace DiceNotation

open Play Nested

/-- A formula that, if it is a replacement, rolls as its argument does and is worth what the transform
of its name makes of the value of that. -/
def Formula.Applies (transform? : String → Option Transform) (table : Table) (f : Formula) : Prop :=
  ∀ name argument label, f = ⟨.replacement name argument, label⟩ → ∃ g, transform? name = some g ∧
    ∀ n, f.roll table n = ((fun o : Outcome =>
      (Outcome.bare (.replacement name o) (g o.value)).relabel label) <$> argument.roll) table n

/-- An outcome that, if it is one of a replacement, is worth what the transform of its name makes of
the value of its argument. -/
def Outcome.Applied (transform? : String → Option Transform) (o : Outcome) : Prop :=
  ∀ name argument, o.body = .replacement name argument →
    ∃ g, transform? name = some g ∧ o.value = g argument.value

variable {table : Table} {n : Nat} {transform? : String → Option Transform}

theorem transform_run {name : String} {g : Transform} (h : table.transforms.lookup name = some g)
    (value : Number) : transform name value table n = (.ok (g value), n) := by
  have htable : Play.table table n = (.ok table, n) := rfl
  rw [transform, bind_ok htable, h]
  rfl

theorem gives_transform_applied (name : String) (value : Number) :
    (transform name value).Gives table n fun x _ =>
      ∃ g, table.transforms.lookup name = some g ∧ x = g value := by
  simp only [transform, gives_bind, gives_table]
  split
  · rename_i g hg
    rw [gives_pure]
    exact ⟨g, hg, rfl⟩
  · exact gives_fault _ _

namespace Outcome

theorem applied_of_body {o o' : Outcome} (h : o.Applied transform?) (hbody : o'.body = o.body)
    (hvalue : o'.value = o.value) : o'.Applied transform? := by
  intro name argument hreplacement
  obtain ⟨g, hg, hworth⟩ := h name argument (hbody ▸ hreplacement)
  exact ⟨g, hg, hvalue.trans hworth⟩

theorem lasting_applied : Lasting (Applied transform?) where
  place o order h := applied_of_body h rfl rfl
  relabel o label h := by
    refine applied_of_body h (body_relabel o label) ?_
    rw [value, value, status_relabel]
  revise o o' hrevised h := by
    cases hrevised with
    | die | diceSum => exact nofun
    | status order value => exact applied_of_body h rfl value

end Outcome

theorem gives_roll_applied {shape : Shape} (hown : shape.IsOwn) :
    shape.roll.Gives table n fun o _ => o.Applied fun name => table.transforms.lookup name := by
  cases shape with
  | replacement name argument =>
    simp only [Shape.roll, bind_pure_comp, gives_bind, gives_map]
    refine (gives_trivial _).mono fun o k _ => (gives_transform_applied name o.value).mono ?_
    rintro x k ⟨g, hg, rfl⟩ name' argument' hbody
    obtain ⟨rfl, rfl⟩ := Body.replacement.inj hbody
    exact ⟨g, hg, rfl⟩
  | _ =>
    refine (gives_forms hown).mono fun o k hforms name argument hbody => ?_
    rw [hbody] at hforms
    exact hforms.elim

/-- All replacements in an outcome are worth what the table makes of their arguments. -/
theorem applied_of_roll {f : Formula} {m : Nat} {o : Outcome} (h : f.roll table n = (.ok o, m)) :
    ∀ p ∈ parts o, p.Applied fun name => table.transforms.lookup name :=
  rolls_throughout Outcome.lasting_applied (fun _ _ => gives_roll_applied) f n o m h

/-- Replacements roll as they should wherever they stand in a formula, also where a modifier takes its
number from them, if the table knows the names that the formula mentions. -/
theorem applies_of_mentions (table : Table) {f : Formula}
    (h : ∀ name ∈ f.mentions, (table.transforms.lookup name).isSome) :
    ∀ q ∈ parts f, q.Applies (fun name => table.transforms.lookup name) table := by
  rintro q hq name argument label rfl
  have hname : name ∈ f.mentions := List.mem_filterMap.mpr ⟨_, hq, rfl⟩
  obtain ⟨g, hg⟩ := Option.isSome_iff_exists.mp (h name hname)
  refine ⟨g, hg, fun n => ?_⟩
  simp only [Formula.roll, Shape.roll, bind_pure_comp, map_bind, Functor.map_map]
  rw [map_eq_pure_bind, bind_run, bind_run]
  rcases argument.roll table n with ⟨e | o, m⟩
  · rfl
  · exact map_ok (transform_run hg o.value) _

end DiceNotation

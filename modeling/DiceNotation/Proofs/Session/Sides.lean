import DiceNotation.Proofs.Grammar.WellFormed
import DiceNotation.Proofs.Number.Floats
import DiceNotation.Proofs.Roll.Throughout

/-! The faces of the dice that a text rolls. A die is refused if its faces come to less than one, so
every throw of a die with numbered faces has one at least, and shows one of them; but what is not a
number is not less than one, and dice with that many faces have none. -/

namespace DiceNotation

open Play Nested

namespace Outcome

/-- What a die asks for passed for a number of faces. -/
def Sided (o : Outcome) : Prop :=
  ∀ count sides throws, o.body = .die count (some sides) throws →
    sides.value.floor.less (.int 1) = false

theorem sided_of_body {o o' : Outcome} (h : o.Sided) (hbody : o'.body = o.body) : o'.Sided :=
  fun count sides throws hdie => h count sides throws (hbody ▸ hdie)

theorem lasting_sided : Lasting Sided where
  place o order h := sided_of_body h rfl
  relabel o label h := sided_of_body h (body_relabel o label)
  revise o o' hrevised h := by
    cases hrevised with
    | die order throws =>
      rintro count sides throws ⟨⟩
      exact h _ sides _ rfl
    | diceSum order first others => exact nofun
    | status order value => exact sided_of_body h rfl

end Outcome

section Roll

variable {table : Table} {n : Nat}

theorem gives_rollFaces_sided (faces : Faces Formula) :
    (rollFaces faces).Gives table n fun r _ =>
      ∀ sides, r.1 = some sides → sides.value.floor.less (.int 1) = false := by
  cases faces with
  | fate => simp [rollFaces]
  | sides count =>
    simp only [rollFaces, bind_pure_comp, gives_bind, gives_map]
    refine (gives_trivial _).mono fun o k _ => ?_
    unfold sidesOf
    split
    · simp
    · rename_i hpass
      rw [gives_pure]
      rintro sides ⟨⟩
      exact Bool.eq_false_iff.mpr hpass

theorem gives_rollDie_sided (d : Die Formula) :
    (Shape.die d).roll.Gives table n fun o _ => o.Sided := by
  simp only [Shape.roll, bind_pure_comp, gives_bind, gives_map]
  refine (gives_trivial _).mono fun count k _ => (gives_trivial _).mono fun size k _ => ?_
  refine (gives_rollFaces_sided d.faces).mono fun r k hr => ?_
  refine (gives_trivial _).mono fun _ k _ => (gives_trivial _).mono fun _ k _ => ?_
  refine (gives_trivial _).mono fun _ k _ => (gives_trivial _).mono fun _ k _ => ?_
  intro count sides throws hdie
  exact hr sides (Body.die.inj hdie).2.1

theorem gives_roll_sided {shape : Shape} (hown : shape.IsOwn) :
    shape.roll.Gives table n fun o _ => o.Sided := by
  cases shape with
  | die d => exact gives_rollDie_sided d
  | _ =>
    refine (gives_forms hown).mono fun o k hforms count sides throws hdie => ?_
    rw [hdie] at hforms
    exact hforms.elim

/-- Faces that a die throws are one at least, if they are a number, and a throw shows one of them. -/
theorem faces_of_roll {f : Formula} {m : Nat} {o : Outcome} (h : f.roll table n = (.ok o, m)) :
    ∀ p ∈ parts o, ∀ t ∈ p.throws, ∀ k, t.faces = .sides k →
      ∃ count sides, p.body = .die count (some sides) p.throws ∧
        (sides.value.isNaN = true ∧ k = 0 ∨
          1 ≤ k ∧ (f.Uncompounded → 1 ≤ t.face ∧ t.face ≤ k)) := by
  intro p hp t ht k hk
  obtain ⟨horderly, honface⟩ := (rolls_sound f id n o m h).2 p hp
  have hsided := rolls_throughout Outcome.lasting_sided (fun _ _ => gives_roll_sided) f n o m h p hp
  obtain ⟨status, body, label⟩ := p
  cases body with
  | die count faces throws =>
    obtain ⟨-, hthrows⟩ := horderly
    have hfaces : Faces.sides k = Outcome.facesOf faces := hk.symm.trans (hthrows t ht).1
    cases faces with
    | none => cases hfaces
    | some sides =>
      obtain rfl : k = sides.value.floor.toInt64 := Faces.sides.inj hfaces
      refine ⟨count, sides, rfl, ?_⟩
      rcases Number.one_le_floor (hsided count sides throws rfl) with hnan | hone
      · exact Or.inl ⟨hnan, Number.toInt64_floor_of_isNaN hnan⟩
      · refine Or.inr ⟨hone, fun hf => ?_⟩
        have hface := honface hf t ht
        simp only [Throw.OnFace, hk] at hface
        exact hface hone
  | number | diceSum | arithmetic | group | function | replacement => cases ht

end Roll

/-- A text that has an outcome was read, and the outcome is that of the formula. -/
theorem exists_of_roll_text_ok {r : Roller} {cache : Cache} {text : String} {o : Outcome}
    (h : (r.roll cache (.text text)).1.outcome = .ok o) :
    ∃ f table m, Formula.parse text = .ok f ∧ f.roll table r.cursor = (.ok o, m) := by
  have hread : (Request.text text).read = (Formula.parse text).mapError .unparsed := rfl
  rw [Roller.roll, hread] at h
  cases hparse : Formula.parse text with
  | error failure =>
    rw [hparse] at h
    cases h
  | ok f =>
    rw [hparse] at h
    simp only [Except.mapError, Roller.rollFormula] at h
    split at h
    · cases h
    · rename_i transforms _
      refine ⟨f, r.table transforms, (f.roll (r.table transforms) r.cursor).2, rfl, ?_⟩
      simp only [Roller.rollWith] at h
      split at h
      · cases h
      · cases h
        exact Prod.ext ‹_› rfl

/-- Whatever text is rolled, its dice have one face at least, unless the number of their faces is not a
number. -/
theorem faces_of_roll_text {r : Roller} {cache : Cache} {text : String} {o : Outcome}
    (h : (r.roll cache (.text text)).1.outcome = .ok o) :
    ∃ f, Formula.parse text = .ok f ∧ ∀ p ∈ parts o, ∀ t ∈ p.throws, ∀ k, t.faces = .sides k →
      ∃ count sides, p.body = .die count (some sides) p.throws ∧
        (sides.value.isNaN = true ∧ k = 0 ∨
          1 ≤ k ∧ (f.Uncompounded → 1 ≤ t.face ∧ t.face ≤ k)) := by
  obtain ⟨f, table, m, hparse, hroll⟩ := exists_of_roll_text_ok h
  exact ⟨f, hparse, faces_of_roll hroll⟩

/-- Two dice with as many faces as a third one shows. -/
theorem faces_of_roll_text_nested : ∃ o f,
    ((Roller.new (fun _ => 0.5) (fun _ => .error "") 10).roll .empty (.text "2d(1d6+2)")).1.outcome =
      .ok o ∧ Formula.parse "2d(1d6+2)" = .ok f ∧ o.throws ≠ [] ∧
    ∀ p ∈ parts o, ∀ t ∈ p.throws, ∀ k, t.faces = .sides k →
      ∃ count sides, p.body = .die count (some sides) p.throws ∧
        (sides.value.isNaN = true ∧ k = 0 ∨
          1 ≤ k ∧ (f.Uncompounded → 1 ≤ t.face ∧ t.face ≤ k)) := by
  have hrun : (((Roller.new (fun _ => 0.5) (fun _ => .error "") 10).roll .empty
      (.text "2d(1d6+2)")).1.outcome).toOption.any (fun o => !o.throws.isEmpty) = true := by
    decide +kernel
  obtain ⟨o, ho, hthrows⟩ := exists_of_toOption_any hrun
  obtain ⟨f, hparse, hfaces⟩ := faces_of_roll_text ho
  exact ⟨o, f, ho, hparse, by simpa using hthrows, hfaces⟩

/-- A die without faces: as many as nothing times a number too large for a float. -/
theorem faces_of_roll_text_none : ∃ o,
    ((Roller.new (fun _ => 0.5) (fun _ => .error "") 10).roll .empty
      (.text ("1d(1" ++ String.ofList (List.replicate 309 '0') ++ ".0*0)"))).1.outcome = .ok o ∧
    ∃ p ∈ parts o, ∃ t ∈ p.throws, t.faces = .sides 0 := by
  have hrun : (((Roller.new (fun _ => 0.5) (fun _ => .error "") 10).roll .empty
      (.text ("1d(1" ++ String.ofList (List.replicate 309 '0') ++ ".0*0)"))).1.outcome).toOption.any
        (fun o => o.throws.any fun t => t.faces = .sides 0) = true := by
    decide +kernel
  obtain ⟨o, ho, hthrows⟩ := exists_of_toOption_any hrun
  obtain ⟨t, ht, hfaces⟩ := List.any_eq_true.mp hthrows
  exact ⟨o, ho, o, mem_parts_self o, t, ht, of_decide_eq_true hfaces⟩

end DiceNotation

import DiceNotation.Proofs.Writing.Existence

/-! What is written is read back. Every formula that can be written has a text, and none of its texts
is read as another formula. -/

namespace DiceNotation

section Texts

variable {A : Die Formula → List Addition → Prop} {f : Formula} {text : String}

theorem Writing.Derives.parse (h : Writing.Derives A f) (htext : f.IsWritten A text) :
    Formula.parse text = .ok f := by
  obtain ⟨ws, hws, hspaced⟩ := htext
  obtain ⟨ps, hps, hwords, hwhole⟩ := h ws hws
  rw [← hwords] at hspaced
  exact hwhole.parse (hspaced.spells hps)

theorem isWritten_of_words {ws : List String} (h : Writing.OfFormula A f ws)
    (htext : text.toList = Token.spacedText (ws.map String.toList)) : f.IsWritten A text := by
  refine ⟨ws, h, ?_⟩
  rw [htext]
  exact Token.spaced_spacedText _

end Texts

/-- A formula that can be written has a text and is what is read from any of its texts, where additions
are arranged so that none takes up the one after it. -/
theorem parse_of_isWritten {f : Formula} (hf : f.Writable) :
    (∃ text, f.IsWritten Die.Arranged text) ∧
      ∀ text, f.IsWritten Die.Arranged text → Formula.parse text = .ok f := by
  constructor
  · obtain ⟨ws, hws⟩ := Writing.has_of_writable hf
    exact ⟨_, isWritten_of_words hws String.toList_ofList⟩
  · intro text htext
    exact (Writing.derives_of_writable (fun d xs h => h) hf).parse htext

section Explosions

/-- Two dice whose throws explode and count from four on. -/
def countedExplosion : Die Formula where
  count := .int 2
  faces := .sides (.int 6)
  mods := [.explode .explode none]
  targets := [.success ⟨.atLeast, .int 4⟩]
  matching := none
  sorting := none

/-- Two dice whose throws explode from four on. -/
def explosionFromFour : Die Formula where
  count := .int 2
  faces := .sides (.int 6)
  mods := [.explode .explode (some ⟨.atLeast, .int 4⟩)]
  targets := []
  matching := none
  sorting := none

theorem writable_int {i : Int64} (h : i ≠ Int64.minValue) : (Formula.int i).Writable := by
  refine (Formula.writable_iff _).mpr ⟨⟨⟨?_, nofun⟩, rfl, nofun⟩, nofun, nofun⟩
  exact fun heq => h (Number.int.inj heq)

theorem writable_die {d : Die Formula} (hproper : (Shape.die d).Proper)
    (hparts : (Formula.die d).operands ++ (Formula.die d).arguments = [.int 2, .int 6, .int 4]) :
    (Formula.die d).Writable := by
  have hints : ∀ g ∈ (Formula.die d).operands ++ (Formula.die d).arguments, g.Writable := by
    rw [hparts]
    exact List.forall_mem_cons.mpr ⟨writable_int (by decide), List.forall_mem_cons.mpr
      ⟨writable_int (by decide), List.forall_mem_singleton.mpr (writable_int (by decide))⟩⟩
  exact (Formula.writable_iff _).mpr
    ⟨⟨⟨hproper, nofun⟩, trivial, nofun⟩, List.forall_mem_append.mp hints⟩

theorem writable_countedExplosion : (Formula.die countedExplosion).Writable :=
  writable_die ⟨List.forall_mem_singleton.mpr rfl, List.forall_mem_singleton.mpr rfl⟩ rfl

theorem writable_explosionFromFour : (Formula.die explosionFromFour).Writable :=
  writable_die ⟨List.forall_mem_singleton.mpr rfl, List.forall_mem_nil _⟩ rfl

theorem parse_of_isWritten_target_first : (Formula.die countedExplosion).Writable ∧
    (Formula.die countedExplosion).IsWritten Die.Arranged "( 2 ) d ( 6 ) >= ( 4 ) !" ∧
    Formula.parse "( 2 ) d ( 6 ) >= ( 4 ) !" = .ok (.die countedExplosion) := by
  have hwritten : (Formula.die countedExplosion).IsWritten Die.Arranged
      "( 2 ) d ( 6 ) >= ( 4 ) !" := by
    have hword : ">=" ∈ Relation.words .atLeast := by decide
    have hadditions := Writing.OfAdditions.cons (A := Die.Arranged)
      (.modifier (.success (.mk hword (.mk (.number 4)))))
      (.cons (.modifier (.explode .explode)) .nil)
    have harranged : countedExplosion.Arranged
        [.modifier (.success ⟨.atLeast, .int 4⟩), .modifier (.explode .explode none)] :=
      ⟨rfl, rfl, rfl, rfl, .cons_cons rfl (.singleton _)⟩
    exact isWritten_of_words (.die (.mk (.number 2)) (.sides (.mk (.number 6))) harranged hadditions)
      (by decide +kernel)
  have hwritable := writable_countedExplosion
  exact ⟨hwritable, hwritten, (parse_of_isWritten hwritable).2 _ hwritten⟩

/-- A target that comes after the modifiers may be read as the condition of the last of them. -/
theorem parse_of_isWritten_in_order_differs : (Formula.die countedExplosion).Writable ∧
    (Formula.die countedExplosion).IsWritten Die.InOrder "( 2 ) d ( 6 ) ! >= ( 4 )" ∧
    Formula.parse "( 2 ) d ( 6 ) ! >= ( 4 )" = .ok (.die explosionFromFour) ∧
    explosionFromFour ≠ countedExplosion := by
  have hword : ">=" ∈ Relation.words .atLeast := by decide
  have hfour {A : Die Formula → List Addition → Prop} :
      Writing.OfComparison A ⟨.atLeast, .int 4⟩ _ := .mk hword (.mk (.number 4))
  refine ⟨writable_countedExplosion, ?_, ?_, ?_⟩
  · have hadditions := Writing.OfAdditions.cons (A := Die.InOrder)
      (.modifier (.explode .explode)) (.cons (.modifier (.success hfour)) .nil)
    have horder : countedExplosion.InOrder
        [.modifier (.explode .explode none), .modifier (.success ⟨.atLeast, .int 4⟩)] := rfl
    exact isWritten_of_words (.die (.mk (.number 2)) (.sides (.mk (.number 6))) horder hadditions)
      (by decide +kernel)
  · have hadditions := Writing.OfAdditions.cons (A := Die.Arranged)
      (.modifier (.explodeOn .explode (.compared hfour))) .nil
    have harranged : explosionFromFour.Arranged
        [.modifier (.explode .explode (some ⟨.atLeast, .int 4⟩))] :=
      ⟨rfl, rfl, rfl, rfl, .singleton _⟩
    have hwritten : (Formula.die explosionFromFour).IsWritten Die.Arranged
        "( 2 ) d ( 6 ) ! >= ( 4 )" :=
      isWritten_of_words
        (.die (.mk (.number 2)) (.sides (.mk (.number 6))) harranged hadditions) (by decide +kernel)
    exact (Writing.derives_of_writable (fun d xs h => h) writable_explosionFromFour).parse hwritten
  · exact fun h => nomatch congrArg Die.targets h

end Explosions

end DiceNotation

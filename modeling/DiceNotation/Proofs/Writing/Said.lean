import DiceNotation.Proofs.Grammar.WellFormed
import DiceNotation.Proofs.Writing.Basic
import Mathlib.Data.List.Chain

/-! Words that the grammar derives. Each word is a token of one kind, and the words of a construct are
those of its parts one after the other, so a derivation is built along the writing: here for values,
conditions and additions, if the formulas in them are derived. -/

namespace DiceNotation

open DiceNotation.Parser
open Token (Kind Piece Genuine)

/-- There are tokens with these words of which `G` holds. -/
def Said (G : List Piece → Prop) (ws : List String) : Prop :=
  ∃ ps, Genuine ps ∧ ps.map Prod.snd = ws.map String.toList ∧ G ps

namespace Said

variable {G H : List Piece → Prop} {ws vs : List String}

theorem mono (h : Said G ws) (hGH : ∀ ps, G ps → H ps) : Said H ws := by
  obtain ⟨ps, hps, hws, hG⟩ := h
  exact ⟨ps, hps, hws, hGH ps hG⟩

theorem nil (hG : G []) : Said G [] :=
  ⟨[], List.forall_mem_nil _, rfl, hG⟩

theorem cons {k : Kind} {word : String} (hk : k.Matches word.toList)
    (h : Said (fun ps => G ((k, word.toList) :: ps)) ws) : Said G (word :: ws) := by
  obtain ⟨ps, hps, hws, hG⟩ := h
  exact ⟨(k, word.toList) :: ps, List.forall_mem_cons.mpr ⟨hk, hps⟩, by simp [hws], hG⟩

theorem single {k : Kind} {word : String} (hk : k.Matches word.toList)
    (hG : G [(k, word.toList)]) : Said G [word] :=
  .cons hk (.nil hG)

theorem append (h : Said H ws) (hvs : ∀ ps, H ps → Said (fun qs => G (ps ++ qs)) vs) :
    Said G (ws ++ vs) := by
  obtain ⟨ps, hps, hws, hH⟩ := h
  obtain ⟨qs, hqs, hvs, hG⟩ := hvs ps hH
  exact ⟨ps ++ qs, List.forall_mem_append.mpr ⟨hps, hqs⟩, by simp [hws, hvs], hG⟩

end Said

namespace Writing

variable {A : Die Formula → List Addition → Prop} {ws vs : List String}

/-- Whatever is written of the formula is derived as the formula. -/
def Derives (A : Die Formula → List Addition → Prop) (f : Formula) : Prop :=
  ∀ ws, OfFormula A f ws → Said (Whole f) ws

section Values

variable {f : Formula} {t : Target Formula}

theorem Enclosed.said (h : Enclosed A f ws) (hf : Derives A f) : Said (Grammar (.parens f)) ws := by
  obtain ⟨h⟩ := h
  have hleft : Kind.leftParen.Matches "(".toList := rfl
  have hright : Kind.rightParen.Matches ")".toList := rfl
  exact .cons hleft (.append (hf _ h) fun ps hps => .single hright (hps.parens _))

theorem exists_relation? {relation : Relation} {word : String} (h : word ∈ relation.words) :
    ∃ k, relation? k = some relation ∧ k.Matches word.toList := by
  cases relation <;> simp only [Relation.words, List.mem_cons, List.not_mem_nil, or_false] at h
  · rcases h with rfl | rfl
    · exact ⟨.greater, rfl, rfl⟩
    · exact ⟨.greaterEqual, rfl, rfl⟩
  · rcases h with rfl | rfl
    · exact ⟨.less, rfl, rfl⟩
    · exact ⟨.lessEqual, rfl, rfl⟩
  · subst h
    exact ⟨.equal, rfl, rfl⟩

theorem OfComparison.said (h : OfComparison A t ws) (ht : Derives A t.value) :
    Said (Grammar (.comparison t)) ws := by
  obtain ⟨hword, h⟩ := h
  obtain ⟨k, hk, hmatches⟩ := exists_relation? hword
  exact .cons hmatches ((h.said ht).mono fun ps hps => .comparison hk (.unsignedValue (.enclosed hps)))

theorem OfTarget.said (h : OfTarget A t ws) (ht : Derives A t.value) :
    Said (Grammar (.target t)) ws := by
  cases h with
  | compared h => exact (h.said ht).mono fun ps hps => .compared hps
  | equality h => exact (h.said ht).mono fun ps hps => .equality (.unsignedValue (.enclosed hps))

theorem OfTarget.said_condition (h : OfTarget A t ws) (ht : Derives A t.value) :
    Said (Grammar (.condition (some t))) ws := by
  cases h with
  | compared h => exact (h.said ht).mono fun ps hps => .conditional hps
  | equality h => exact (h.said ht).mono fun ps hps => .valued (.enclosed hps)

theorem OfFaces.said {s : Faces Formula} (h : OfFaces A s ws)
    (hs : ∀ f ∈ s.arguments, Derives A f) : Said (Grammar (.faces s)) ws := by
  cases h with
  | fate =>
    have hfate : Kind.fate.Matches "F".toList := rfl
    exact .single hfate (.fate _)
  | sides h => exact (h.said (hs _ List.mem_cons_self)).mono fun ps hps => .sides (.enclosed hps)

end Values

section Additions

variable {host : Host} {m : Modifier Formula} {x : Addition} {xs : List Addition}

theorem exists_keep {extreme : Extreme} {word : String} (h : word ∈ extreme.keepWords) :
    ∃ k, selection? k = some (.keep extreme) ∧ k.Matches word.toList := by
  cases extreme <;> simp only [Extreme.keepWords, List.mem_cons, List.not_mem_nil, or_false] at h
  · rcases h with rfl | rfl
    · exact ⟨.keep, rfl, rfl⟩
    · exact ⟨.keepHighest, rfl, rfl⟩
  · subst h
    exact ⟨.keepLowest, rfl, rfl⟩

theorem exists_drop {extreme : Extreme} {word : String} (h : word ∈ extreme.dropWords) :
    ∃ k, selection? k = some (.drop extreme) ∧ k.Matches word.toList := by
  cases extreme <;> simp only [Extreme.dropWords, List.mem_cons, List.not_mem_nil, or_false] at h
  · subst h
    exact ⟨.dropHighest, rfl, rfl⟩
  · rcases h with rfl | rfl
    · exact ⟨.dice, rfl, rfl⟩
    · exact ⟨.dropLowest, rfl, rfl⟩

theorem slot?_of_selection? {k : Kind} {make : Formula → Modifier Formula}
    (h : selection? k = some make) : slot? host k = some (.counted make) := by
  cases host <;> simp [slot?, h]

theorem exists_explosion (mode : Explosion) :
    ∃ k, slot? .die k = some (.optional (.explode mode)) ∧ k.Matches mode.word.toList := by
  cases mode
  · exact ⟨.explode, rfl, rfl⟩
  · exact ⟨.compound, rfl, rfl⟩
  · exact ⟨.penetrate, rfl, rfl⟩

theorem exists_reroll (once : Bool) :
    ∃ k, slot? .die k = some (.optional (.reroll once)) ∧ k.Matches (rerollWord once).toList := by
  cases once
  · exact ⟨.reroll, rfl, rfl⟩
  · exact ⟨.rerollOnce, rfl, rfl⟩

theorem exists_sorting {order : Sorting} {word : String} (h : word ∈ order.words) :
    ∃ k, slot? .die k = some (.sorting order) ∧ k.Matches word.toList := by
  cases order <;> simp only [Sorting.words, List.mem_cons, List.not_mem_nil, or_false] at h
  · rcases h with rfl | rfl
    · exact ⟨.sort, rfl, rfl⟩
    · exact ⟨.sortAscending, rfl, rfl⟩
  · subst h
    exact ⟨.sortDescending, rfl, rfl⟩

theorem exists_matching (counted : Bool) :
    ∃ k, slot? .die k = some (.matching counted) ∧ k.Matches (matchingWord counted).toList := by
  cases counted
  · exact ⟨.same, rfl, rfl⟩
  · exact ⟨.sameCount, rfl, rfl⟩

theorem host_eq_die (h : host.knows m = true) (hm : m.isForGroups = false) : host = .die := by
  cases host with
  | die => rfl
  | group => exact absurd h (by simp [Host.knows, hm])

theorem OfModifier.said (h : OfModifier A m ws) (hm : ∀ f ∈ m.arguments, Derives A f)
    (hhost : host.knows m = true) : Said (Grammar (.addition host (.modifier m))) ws := by
  have hcounted {k : Kind} {make : Formula → Modifier Formula} {word : String} {f : Formula}
      {ws : List String} (hk : selection? k = some make) (hword : k.Matches word.toList)
      (h : Enclosed A f ws) (hf : Derives A f) :
      Said (Grammar (.addition host (.modifier (make f)))) (word :: ws) :=
    .cons hword ((h.said hf).mono fun ps hps =>
      .counted (slot?_of_selection? hk) (.count (.enclosed hps)))
  cases h with
  | keep hword h =>
    obtain ⟨k, hk, hmatches⟩ := exists_keep hword
    exact hcounted hk hmatches h (hm _ List.mem_cons_self)
  | drop hword h =>
    obtain ⟨k, hk, hmatches⟩ := exists_drop hword
    exact hcounted hk hmatches h (hm _ List.mem_cons_self)
  | success h => exact (h.said (hm _ List.mem_cons_self)).mono fun ps hps => .success hps
  | failure h =>
    have hfailure : Kind.failure.Matches "f".toList := rfl
    have hslot : slot? host .failure = some (.required .failure) := by cases host <;> rfl
    exact .cons hfailure ((h.said (hm _ List.mem_cons_self)).mono fun ps hps => .required hslot hps)
  | critical h =>
    obtain rfl := host_eq_die hhost rfl
    have hcritical : Kind.critSuccess.Matches "cs".toList := rfl
    exact .cons hcritical ((h.said (hm _ List.mem_cons_self)).mono fun ps hps => .required rfl hps)
  | criticalFailure h =>
    obtain rfl := host_eq_die hhost rfl
    have hcritical : Kind.critFailure.Matches "cf".toList := rfl
    exact .cons hcritical ((h.said (hm _ List.mem_cons_self)).mono fun ps hps => .required rfl hps)
  | explode mode =>
    obtain rfl := host_eq_die hhost rfl
    obtain ⟨k, hk, hmatches⟩ := exists_explosion mode
    exact .single hmatches (.optional hk .unconditional)
  | explodeOn mode h =>
    obtain rfl := host_eq_die hhost rfl
    obtain ⟨k, hk, hmatches⟩ := exists_explosion mode
    exact .cons hmatches
      ((h.said_condition (hm _ List.mem_cons_self)).mono fun ps hps => .optional hk hps)
  | reroll once =>
    obtain rfl := host_eq_die hhost rfl
    obtain ⟨k, hk, hmatches⟩ := exists_reroll once
    exact .single hmatches (.optional hk .unconditional)
  | rerollOn once h =>
    obtain rfl := host_eq_die hhost rfl
    obtain ⟨k, hk, hmatches⟩ := exists_reroll once
    exact .cons hmatches
      ((h.said_condition (hm _ List.mem_cons_self)).mono fun ps hps => .optional hk hps)

theorem OfAddition.said (h : OfAddition A x ws) (hx : ∀ f ∈ x.arguments, Derives A f)
    (hdie : ∀ m ∈ x.modifiers, Host.die.knows m = true) :
    Said (Grammar (.addition .die x)) ws := by
  cases h with
  | modifier h => exact h.said hx (hdie _ List.mem_cons_self)
  | sorting hword =>
    obtain ⟨k, hk, hmatches⟩ := exists_sorting hword
    exact .single hmatches (.sorting hk)
  | matching counted h =>
    obtain ⟨k, hk, hmatches⟩ := exists_matching counted
    refine .cons hmatches ((h.said (hx _ List.mem_cons_self)).mono fun ps hps => ?_)
    rw [← List.append_nil ps]
    exact .matching hk (.count (.enclosed hps)) .unfiltered
  | filtered counted h ht =>
    obtain ⟨hf, ht'⟩ := List.forall_mem_cons.mp hx
    obtain ⟨k, hk, hmatches⟩ := exists_matching counted
    refine .cons hmatches (.append (h.said hf) fun ps hps => ?_)
    exact (ht.said (ht' _ List.mem_cons_self)).mono fun qs hqs =>
      .matching hk (.count (.enclosed hps)) (.filtered hqs)

/-- Additions one after the other, if none takes up the one after it. -/
theorem OfAdditions.said {isOpen : Bool} (h : OfAdditions A xs ws)
    (hxs : ∀ x ∈ xs, ∀ ws, OfAddition A x ws → Said (Grammar (.addition host x)) ws)
    (hhead : ∀ x ∈ xs.head?, (isOpen && x.isCondition) = false)
    (hapart : xs.IsChain fun x y => (x.isOpen && y.isCondition) = false) :
    Said (Grammar (.additions host isOpen xs)) ws := by
  induction xs generalizing ws isOpen with
  | nil =>
    obtain ⟨⟩ := h
    exact .nil .nothing
  | cons x xs ih =>
    obtain ⟨⟩ | ⟨h, hrest⟩ := h
    obtain ⟨hx, hxs⟩ := List.forall_mem_cons.mp hxs
    rw [List.isChain_cons] at hapart
    refine .append (hx _ h) fun ps hps => ?_
    exact (ih hrest hxs hapart.1 hapart.2).mono fun qs hqs => .more (hhead x rfl) hps hqs

end Additions

end Writing

end DiceNotation

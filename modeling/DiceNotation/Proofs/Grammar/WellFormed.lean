import DiceNotation.Proofs.Formula.WellFormed
import DiceNotation.Proofs.Grammar.Language
import DiceNotation.Session.Roller

/-! What the grammar derives is well-formed, all through. So no text gives a formula that rolling
refuses. -/

namespace DiceNotation

open DiceNotation.Parser
open Token (Kind Piece Genuine)

section Chains

variable {head : Formula}

theorem wellFormed_sumOf {tail : List (Sign × Formula)} (hhead : head.WellFormed)
    (htail : ∀ t ∈ tail, t.2.WellFormed) : (sumOf head tail).WellFormed := by
  have hoperands : ∀ g ∈ head :: tail.map Prod.snd, g.WellFormed :=
    List.forall_mem_cons.mpr ⟨hhead, List.forall_mem_map.mpr htail⟩
  unfold sumOf
  split
  · exact hhead
  · rename_i hne
    replace hne : tail ≠ [] := by simpa using hne
    split
    · rename_i hdice
      exact Formula.wellFormed_bare ⟨hne, by simpa using hdice⟩ hoperands nofun
    · rename_i hdice
      simp only [Bool.or_eq_true, List.any_eq_true, not_or, Bool.not_eq_true, not_exists,
        not_and] at hdice
      obtain ⟨hhead', htail'⟩ := hdice
      refine Formula.wellFormed_bare ⟨by simpa using hne, .inl ⟨?_, hhead', ?_⟩⟩ ?_ nofun
      · rw [List.forall_mem_map]
        rintro ⟨op, f⟩ -
        cases op <;> simp [Sign.toOperator]
      · exact List.forall_mem_map.mpr htail'
      · rw [Formula.bare, Formula.operands, List.map_map]
        exact hoperands

theorem wellFormed_productOf {tail : List (Operator × Formula)} (hhead : head.WellFormed)
    (htail : ∀ t ∈ tail, t.1 ∈ [.mul, .div, .rem] ∧ t.2.WellFormed) :
    (productOf head tail).WellFormed := by
  cases tail with
  | nil => exact hhead
  | cons t tail =>
    refine Formula.wellFormed_bare
      ⟨List.cons_ne_nil _ _, .inr (.inl fun t ht => (htail t ht).1)⟩ ?_ nofun
    exact List.forall_mem_cons.mpr ⟨hhead, List.forall_mem_map.mpr fun t ht => (htail t ht).2⟩

end Chains

section Signs

variable {f : Formula}

theorem wellFormed_negate (h : f.WellFormed) : (negate f).WellFormed := by
  unfold negate
  split
  · exact Formula.wellFormed_number (Number.neg_ne_minValue _)
  · exact Formula.wellFormed_negated h

theorem wellFormed_opposite (h : f.WellFormed) : (opposite f).WellFormed := by
  unfold opposite
  split
  · exact Formula.wellFormed_number (Number.neg_ne_minValue _)
  · exact Formula.wellFormed_negated h

theorem labelText_isBracket {text : List Char} (h : Kind.label.Matches text) :
    ∀ c ∈ (labelText text).toList, Token.isBracket c = false := by
  obtain ⟨run, rfl, hrun⟩ := h
  intro c hc
  refine hrun c ?_
  have htrim : c ∈ Text.trimChars run := by simpa [labelText] using hc
  simp only [Text.trimChars, List.mem_reverse] at htrim
  exact (List.dropWhile_sublist _).mem (List.mem_reverse.mp ((List.dropWhile_sublist _).mem htrim))

theorem wellFormed_addLabel {label : String} (h : f.WellFormed)
    (hlabel : ∀ c ∈ label.toList, Token.isBracket c = false) : (addLabel f label).WellFormed := by
  have hbefore := ((Formula.wellFormed_iff f).mp h).1.2
  refine h.relabel fun l hl => ?_
  obtain rfl := Option.some.inj hl
  split
  · rename_i before heq
    intro c hc
    simp only [String.toList_append, List.mem_append] at hc
    rcases hc with (hc | hc) | hc
    · exact hbefore before heq c hc
    · obtain rfl : c = ' ' := by simpa using hc
      rfl
    · exact hlabel c hc
  · exact hlabel

theorem wellFormed_labeled {texts : List (List Char)} (h : f.WellFormed)
    (htexts : ∀ text ∈ texts, Kind.label.Matches text) : (labeled f texts).WellFormed := by
  induction texts generalizing f with
  | nil => exact h
  | cons text texts ih =>
    obtain ⟨htext, htexts⟩ := List.forall_mem_cons.mp htexts
    exact ih (wellFormed_addLabel h (labelText_isBracket htext)) htexts

end Signs

def Addition.arguments : Addition → List Formula
  | .modifier m => m.arguments
  | .sorting _ => []
  | .matching m => m.arguments

/-- Whether the host has a place for the modifier. -/
def Host.knows : Host → Modifier Formula → Bool
  | .die, m => m.isTarget || m.isForThrows
  | .group, m => m.isForGroups

def Addition.WellFormed (host : Host) (x : Addition) : Prop :=
  (∀ m ∈ x.modifiers, host.knows m = true) ∧ ∀ f ∈ x.arguments, f.WellFormed

section Additions

variable {host : Host} {k : Kind} {f : Formula}

/-- A keyword gives a modifier to a host that has a place for it. -/
theorem Addition.wellFormed_counted {make : Formula → Modifier Formula}
    (hk : slot? host k = some (.counted make)) (hf : f.WellFormed) :
    (Addition.modifier (make f)).WellFormed host := by
  have hargument : ∀ g ∈ [f], g.WellFormed := List.forall_mem_singleton.mpr hf
  cases host <;> cases k <;> cases hk <;> exact ⟨List.forall_mem_singleton.mpr rfl, hargument⟩

theorem Addition.wellFormed_optional {make : Option (Target Formula) → Modifier Formula}
    {t : Option (Target Formula)} (hk : slot? host k = some (.optional make))
    (ht : ∀ g ∈ t.toList.map Target.value, g.WellFormed) :
    (Addition.modifier (make t)).WellFormed host := by
  cases host <;> cases k <;> cases hk <;> exact ⟨List.forall_mem_singleton.mpr rfl, ht⟩

theorem Addition.wellFormed_required {make : Target Formula → Modifier Formula}
    {t : Target Formula} (hk : slot? host k = some (.required make)) (ht : t.value.WellFormed) :
    (Addition.modifier (make t)).WellFormed host := by
  have hargument : ∀ g ∈ [t.value], g.WellFormed := List.forall_mem_singleton.mpr ht
  cases host <;> cases k <;> cases hk <;> exact ⟨List.forall_mem_singleton.mpr rfl, hargument⟩

theorem Addition.wellFormed_success {t : Target Formula} (ht : t.value.WellFormed) :
    (Addition.modifier (.success t)).WellFormed host := by
  cases host <;> exact ⟨List.forall_mem_singleton.mpr rfl, List.forall_mem_singleton.mpr ht⟩

theorem Addition.eq_of_mod? {x : Addition} {m : Modifier Formula} (h : x.mod? = some m) :
    x = .modifier m ∧ m.isTarget = false := by
  cases x with
  | modifier m' =>
    rw [mod?] at h
    split at h
    · cases h
    · rename_i htarget
      obtain rfl := Option.some.inj h
      exact ⟨rfl, by simpa using htarget⟩
  | sorting | matching => cases h

theorem Addition.eq_of_target? {x : Addition} {m : Modifier Formula} (h : x.target? = some m) :
    x = .modifier m ∧ m.isTarget = true := by
  cases x with
  | modifier m' =>
    rw [target?] at h
    split at h
    · rename_i htarget
      obtain rfl := Option.some.inj h
      exact ⟨rfl, htarget⟩
    · cases h
  | sorting | matching => cases h

theorem Addition.eq_of_matching? {x : Addition} {m : Matching Formula} (h : x.matching? = some m) :
    x = .matching m := by
  cases x with
  | matching m' =>
    obtain rfl := Option.some.inj h
    rfl
  | modifier | sorting => cases h

theorem wellFormed_die {s : Faces Formula} {xs : List Addition} (hf : f.WellFormed)
    (hs : ∀ g ∈ s.arguments, g.WellFormed) (hxs : ∀ x ∈ xs, x.WellFormed .die) :
    (Formula.die (xs.foldl Die.add (.plain f s))).WellFormed := by
  have hmods : ∀ m ∈ xs.filterMap Addition.mod?,
      m.isForThrows = true ∧ ∀ g ∈ m.arguments, g.WellFormed := by
    intro m hm
    obtain ⟨x, hx, hxm⟩ := List.mem_filterMap.mp hm
    obtain ⟨rfl, htarget⟩ := Addition.eq_of_mod? hxm
    have hplace : (m.isTarget || m.isForThrows) = true := (hxs _ hx).1 m List.mem_cons_self
    exact ⟨by simpa [htarget] using hplace, (hxs _ hx).2⟩
  have htargets : ∀ m ∈ xs.filterMap Addition.target?,
      m.isTarget = true ∧ ∀ g ∈ m.arguments, g.WellFormed := by
    intro m hm
    obtain ⟨x, hx, hxm⟩ := List.mem_filterMap.mp hm
    obtain ⟨rfl, htarget⟩ := Addition.eq_of_target? hxm
    exact ⟨htarget, (hxs _ hx).2⟩
  have hmatching : ∀ g ∈ (xs.filterMap Addition.matching?).getLast?.toList.flatMap
      Matching.arguments, g.WellFormed := by
    refine List.forall_mem_flatMap.mpr fun m hm => ?_
    obtain ⟨x, hx, hxm⟩ := List.mem_filterMap.mp (List.mem_of_mem_getLast? (Option.mem_toList.mp hm))
    obtain rfl := Addition.eq_of_matching? hxm
    exact (hxs _ hx).2
  rw [Die.foldl_add]
  simp only [Die.plain, List.nil_append, Option.or_none]
  refine Formula.wellFormed_bare ⟨fun m hm => (hmods m hm).1, fun m hm => (htargets m hm).1⟩
    (List.forall_mem_cons.mpr ⟨hf, hs⟩) (List.forall_mem_append.mpr ⟨?_, hmatching⟩)
  exact List.forall_mem_flatMap.mpr (List.forall_mem_append.mpr
    ⟨fun m hm => (hmods m hm).2, fun m hm => (htargets m hm).2⟩)

theorem wellFormed_group {fs : List Formula} {xs : List Addition} (hf : f.WellFormed)
    (hfs : ∀ g ∈ fs, g.WellFormed) (hxs : ∀ x ∈ xs, x.WellFormed .group) :
    (Formula.bare (.group f fs (xs.flatMap Addition.modifiers))).WellFormed := by
  have harguments : ∀ x ∈ xs, ∀ m ∈ x.modifiers, ∀ g ∈ m.arguments, g.WellFormed := by
    intro x hx m hm
    cases x with
    | modifier m' =>
      obtain rfl := List.mem_singleton.mp hm
      exact (hxs _ hx).2
    | sorting | matching => cases hm
  refine Formula.wellFormed_bare ?_ (List.forall_mem_cons.mpr ⟨hf, hfs⟩) ?_
  · exact List.forall_mem_flatMap.mpr fun x hx m hm => (hxs x hx).1 m hm
  · refine List.forall_mem_append.mpr ⟨?_, nofun⟩
    exact List.forall_mem_flatMap.mpr (List.forall_mem_flatMap.mpr harguments)

end Additions

/-- The formulas of a construct are well-formed, and stand where they may. -/
def Construct.WellFormed : Construct → Prop
  | .parens f | .value f | .signedValue f | .unlabeled f | .term f | .signed f => f.WellFormed
  | .count default f => default.WellFormed → f.WellFormed
  | .comparison t | .target t => t.value.WellFormed
  | .condition t | .filter t => ∀ g ∈ t.toList.map Target.value, g.WellFormed
  | .addition host x => x.WellFormed host
  | .additions host _ xs => ∀ x ∈ xs, x.WellFormed host
  | .faces s => ∀ g ∈ s.arguments, g.WellFormed
  | .members fs => ∀ f ∈ fs, f.WellFormed
  | .product head tail =>
    head.WellFormed ∧ ∀ t ∈ tail, t.1 ∈ [.mul, .div, .rem] ∧ t.2.WellFormed
  | .sum head tail => head.WellFormed ∧ ∀ t ∈ tail, t.2.WellFormed

theorem mem_of_multiplier? {k : Kind} {op : Operator} (h : multiplier? k = some op) :
    op ∈ [.mul, .div, .rem] := by
  cases k <;> cases h <;> decide

theorem wellFormed_int {i : Int64} (h : i ≠ Int64.minValue) : (Formula.int i).WellFormed :=
  Formula.wellFormed_number fun heq => h (Number.int.inj heq)

theorem ne_minValue_of_integer? {text : List Char} {i : Int64} (h : integer? text = some i) :
    i ≠ Int64.minValue := by
  rintro rfl
  simp only [integer?, Option.ite_none_right_eq_some, Option.some.injEq] at h
  obtain ⟨hlt, heq⟩ := h
  have hvalue := congrArg Int64.toInt heq
  rw [Int64.toInt_ofInt_of_le (by omega) (by omega)] at hvalue
  have hmin : Int64.minValue.toInt = -0x8000000000000000 := rfl
  omega

theorem Grammar.wellFormed {c : Construct} {ps : List Piece} (h : Grammar c ps)
    (hps : Genuine ps) : c.WellFormed := by
  induction h with
  | parens h ih =>
    obtain ⟨hps, -⟩ := List.forall_mem_append.mp hps
    obtain ⟨hhead, htail⟩ := ih (List.forall_mem_cons.mp hps).2
    exact wellFormed_sumOf hhead htail
  | integer h => exact wellFormed_int (ne_minValue_of_integer? h)
  | decimal => exact Formula.wellFormed_number nofun
  | default => exact id
  | count h ih => exact fun _ => ih hps
  | enclosed h ih | unsignedValue h ih | equality h ih | compared h ih | plain h ih
  | unsigned h ih => exact ih hps
  | negate h ih => exact wellFormed_negate (ih (List.forall_mem_cons.mp hps).2)
  | comparison hk h ih => exact ih (List.forall_mem_cons.mp hps).2
  | unconditional | unfiltered | nothing | alone | fate => nofun
  | valued h ih | conditional h ih | filtered h ih | sides h ih =>
    exact List.forall_mem_singleton.mpr (ih hps)
  | success h ih => exact Addition.wellFormed_success (ih hps)
  | counted hk h ih =>
    exact Addition.wellFormed_counted hk
      (ih (List.forall_mem_cons.mp hps).2 (wellFormed_int (by decide)))
  | optional hk h ih => exact Addition.wellFormed_optional hk (ih (List.forall_mem_cons.mp hps).2)
  | required hk h ih => exact Addition.wellFormed_required hk (ih (List.forall_mem_cons.mp hps).2)
  | sorting hk => exact ⟨nofun, nofun⟩
  | matching hk hcount hfilter ihcount ihfilter =>
    obtain ⟨hps, hqs⟩ := List.forall_mem_append.mp hps
    refine ⟨nofun, List.forall_mem_cons.mpr ⟨?_, ihfilter hqs⟩⟩
    exact ihcount (List.forall_mem_cons.mp hps).2 (wellFormed_int (by decide))
  | more hx h hxs ih ihxs =>
    obtain ⟨hps, hqs⟩ := List.forall_mem_append.mp hps
    exact List.forall_mem_cons.mpr ⟨ih hps, ihxs hqs⟩
  | percent => exact List.forall_mem_singleton.mpr (wellFormed_int (by decide))
  | member h hfs ih ihfs =>
    obtain ⟨hps, hqs⟩ := List.forall_mem_append.mp hps
    obtain ⟨hhead, htail⟩ := ih (List.forall_mem_cons.mp hps).2
    exact List.forall_mem_cons.mpr ⟨wellFormed_sumOf hhead htail, ihfs hqs⟩
  | dice hcount hfaces hxs ihcount ihfaces ihxs =>
    obtain ⟨hps, hrs⟩ := List.forall_mem_append.mp hps
    obtain ⟨hps, hqs⟩ := List.forall_mem_append.mp hps
    exact wellFormed_die (ihcount hps (wellFormed_int (by decide)))
      (ihfaces (List.forall_mem_cons.mp hqs).2) (ihxs hrs)
  | group h hfs hxs ih ihfs ihxs =>
    obtain ⟨hps, hrs⟩ := List.forall_mem_append.mp hps
    obtain ⟨hps, hqs⟩ := List.forall_mem_append.mp hps
    obtain ⟨hhead, htail⟩ := ih (List.forall_mem_cons.mp hps).2
    exact wellFormed_group (wellFormed_sumOf hhead htail) (ihfs hqs)
      (ihxs (List.forall_mem_cons.mp hrs).2)
  | inline h ih =>
    obtain ⟨hps, -⟩ := List.forall_mem_append.mp hps
    obtain ⟨hhead, htail⟩ := ih (List.forall_mem_cons.mp hps).2
    exact Formula.wellFormed_bare trivial
      (List.forall_mem_singleton.mpr (wellFormed_sumOf hhead htail)) nofun
  | function hk h ih | replacement h ih =>
    exact Formula.wellFormed_bare trivial
      (List.forall_mem_singleton.mpr (ih (List.forall_mem_cons.mp hps).2)) nofun
  | labels h texts ih =>
    obtain ⟨hps, hlabels⟩ := List.forall_mem_append.mp hps
    exact wellFormed_labeled (ih hps) fun text htext => hlabels _ (List.mem_map_of_mem htext)
  | power hbase h ihbase ih =>
    obtain ⟨hps, hqs⟩ := List.forall_mem_append.mp hps
    refine Formula.wellFormed_bare ⟨List.cons_ne_nil _ _, .inr (.inr ⟨_, rfl⟩)⟩ ?_ nofun
    exact List.forall_mem_cons.mpr
      ⟨ihbase hps, List.forall_mem_singleton.mpr (ih (List.forall_mem_cons.mp hqs).2)⟩
  | minus h ih => exact wellFormed_opposite (ih (List.forall_mem_cons.mp hps).2)
  | plus h ih => exact ih (List.forall_mem_cons.mp hps).2
  | factor h ih => exact ⟨ih hps, nofun⟩
  | times hk hleft hright ihleft ihright =>
    obtain ⟨hps, hqs⟩ := List.forall_mem_append.mp hps
    obtain ⟨hhead, htail⟩ := ihleft hps
    refine ⟨hhead, List.forall_mem_append.mpr ⟨htail, List.forall_mem_singleton.mpr ?_⟩⟩
    exact ⟨mem_of_multiplier? hk, ihright (List.forall_mem_cons.mp hqs).2⟩
  | summand h ih =>
    obtain ⟨hhead, htail⟩ := ih hps
    exact ⟨wellFormed_productOf hhead htail, nofun⟩
  | added hk hleft hright ihleft ihright =>
    obtain ⟨hps, hqs⟩ := List.forall_mem_append.mp hps
    obtain ⟨hhead, htail⟩ := ihleft hps
    obtain ⟨hhead', htail'⟩ := ihright (List.forall_mem_cons.mp hqs).2
    refine ⟨hhead, List.forall_mem_append.mpr ⟨htail, List.forall_mem_singleton.mpr ?_⟩⟩
    exact wellFormed_productOf hhead' htail'

theorem wellFormed_of_parse {text : String} {f : Formula} (h : Formula.parse text = .ok f) :
    f.WellFormed := by
  obtain ⟨head, tail, hgrammar, rfl⟩ := whole_of_parse h
  obtain ⟨hhead, htail⟩ := hgrammar.wellFormed (genuine_pieces h)
  exact wellFormed_sumOf hhead htail

/-- A text that is rolled was read, and whatever became of it the formula was asked for. -/
theorem exists_of_roll_text {r : Roller} {cache : Cache} {text : String} {e : Fault}
    (h : (r.roll cache (.text text)).1.outcome = .error (.fault e)) :
    ∃ f table, Formula.parse text = .ok f ∧ (f.roll table r.cursor).1 = .error e := by
  have hread : (Request.text text).read = (Formula.parse text).mapError .unparsed := rfl
  rw [Roller.roll, hread] at h
  cases hparse : Formula.parse text with
  | error failure =>
    rw [hparse] at h
    cases h
  | ok f =>
    rw [hparse] at h
    simp only [Except.mapError, Roller.rollFormula] at h
    split at h
    · cases h
    · rename_i transforms _
      refine ⟨f, r.table transforms, rfl, ?_⟩
      simp only [Roller.rollWith] at h
      split at h
      · cases h
        assumption
      · cases h

/-- A formula from a text is well-formed in all of its parts. Any formula has an outcome only if rolling
supports all of its parts, and is refused only if it does not; so no text is refused. -/
theorem parse_wellFormed_roll_supported :
    (∀ text f, Formula.parse text = .ok f → ∀ g ∈ Nested.parts f, g.Proper) ∧
      (∀ (f : Formula) table n,
        (∀ o m, f.roll table n = (.ok o, m) → ∀ g ∈ Nested.parts f, g.Known) ∧
        ∀ e m, f.roll table n = (.error e, m) → e.isRefusal = true →
          ∃ g ∈ Nested.parts f, ¬g.Known) ∧
      ∀ (r : Roller) cache text e,
        (r.roll cache (.text text)).1.outcome = .error (.fault e) → e.isRefusal = false := by
  have hrefused {f : Formula} {table : Table} {n : Nat} {e : Fault} {m : Nat}
      (h : f.roll table n = (.error e, m)) (he : e.isRefusal = true) : ¬f.Supported :=
    (vets_roll f n).fails e m h he
  refine ⟨fun text f h => wellFormed_of_parse h, fun f table n => ⟨?_, fun e m h he => ?_⟩, ?_⟩
  · exact (vets_roll f n).holds
  · simpa [Formula.Supported] using hrefused h he
  · intro r cache text e h
    obtain ⟨f, table, hparse, hroll⟩ := exists_of_roll_text h
    by_contra he
    exact hrefused (Prod.ext hroll rfl) (by simpa using he) (wellFormed_of_parse hparse).supported

/-- Exploding dice of which the best are kept, and what they may make good. -/
theorem parse_wellFormed_roll_supported_explode_keep :
    ∃ f, Formula.parse "4d6!kh3" = .ok f ∧ (∀ g ∈ Nested.parts f, g.Proper) ∧
      ∀ table n e m, f.roll table n = (.error e, m) → e.isRefusal = false := by
  obtain ⟨f, hparse⟩ : ∃ f, Formula.parse "4d6!kh3" = .ok f := by
    have hok : (Formula.parse "4d6!kh3").toBool = true := by decide +kernel
    cases h : Formula.parse "4d6!kh3" with
    | ok f => exact ⟨f, rfl⟩
    | error e =>
      rw [h] at hok
      cases hok
  have hproper := parse_wellFormed_roll_supported.1 _ _ hparse
  refine ⟨_, hparse, hproper, fun table n e m hroll => ?_⟩
  by_contra he
  obtain ⟨g, hg, hunknown⟩ :=
    (parse_wellFormed_roll_supported.2.1 _ table n).2 e m hroll (by simpa using he)
  exact hunknown (hproper g hg).known

end DiceNotation

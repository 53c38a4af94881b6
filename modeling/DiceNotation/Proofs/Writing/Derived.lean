import DiceNotation.Proofs.Writing.Said
import DiceNotation.Proofs.Writing.Arranged
import DiceNotation.Proofs.Arithmetic.Meaning
import DiceNotation.Proofs.Arithmetic.Tokens

/-! What is written the grammar derives. The words of chains, of every shape and so of every formula
are those of its parts, by induction on the formula. -/

namespace DiceNotation

open DiceNotation.Parser
open Token (Kind Piece Genuine)

namespace Writing

variable {A : Die Formula → List Addition → Prop} {ws vs : List String}

section Chains

/-- Operators and their operands, one after the other behind what is there already. -/
theorem OfTail.said {ω : Type} {symbol : ω → String} {tail acc : List (ω × Formula)}
    {ps : List Piece} {M : List (ω × Formula) → List Piece → Prop}
    (h : OfTail A (tail.map fun t => (symbol t.1, t.2)) vs)
    (htail : ∀ f ∈ tail.map Prod.snd, Derives A f)
    (hM : ∀ op ∈ tail.map Prod.fst, ∃ k : Kind, k.Matches (symbol op).toList ∧
      ∀ {acc ps f qs}, M acc ps → Grammar (.parens f) qs →
        M (acc ++ [(op, f)]) (ps ++ (k, (symbol op).toList) :: qs))
    (hacc : M acc ps) : Said (fun qs => M (acc ++ tail) (ps ++ qs)) vs := by
  induction tail generalizing acc ps vs with
  | nil =>
    obtain ⟨⟩ := h
    exact .nil (by simpa using hacc)
  | cons t tail ih =>
    obtain ⟨op, f⟩ := t
    obtain ⟨⟩ | ⟨h, hrest⟩ := h
    obtain ⟨hf, htail⟩ := List.forall_mem_cons.mp htail
    obtain ⟨⟨k, hk, hstep⟩, hM⟩ := List.forall_mem_cons.mp hM
    refine .cons hk (.append (h.said hf) fun qs hqs => ?_)
    exact (ih hrest htail hM (hstep hacc hqs)).mono fun rs hrs => by simpa using hrs

theorem term_parens {f : Formula} {ps : List Piece} (h : Grammar (.parens f) ps) :
    Grammar (.term f) ps :=
  Grammar.unlabeled (.plain (.enclosed h))

theorem signed_parens {f : Formula} {ps : List Piece} (h : Grammar (.parens f) ps) :
    Grammar (.signed f) ps :=
  .unsigned (term_parens h)

theorem sum_parens {f : Formula} {ps : List Piece} (h : Grammar (.parens f) ps) :
    Grammar (.sum f []) ps :=
  .summand (.factor (signed_parens h))

theorem whole_signed {f : Formula} {ps : List Piece} (h : Grammar (.signed f) ps) : Whole f ps :=
  ⟨f, [], .summand (.factor h), rfl⟩

theorem whole_unlabeled {f : Formula} {ps : List Piece} (h : Grammar (.unlabeled f) ps) :
    Whole f ps :=
  whole_signed (.unsigned h.unlabeled)

theorem exists_sign? (op : Sign) :
    ∃ k, sign? k = some op ∧ k.Matches op.symbol.toList ∧ k.Matches op.toOperator.symbol.toList := by
  cases op
  · exact ⟨.plus, rfl, rfl, rfl⟩
  · exact ⟨.minus, rfl, rfl, rfl⟩

theorem exists_multiplier? {op : Operator} (h : op ∈ [.mul, .div, .rem]) :
    ∃ k, multiplier? k = some op ∧ k.Matches op.symbol.toList := by
  simp only [List.mem_cons, List.not_mem_nil, or_false] at h
  rcases h with rfl | rfl | rfl
  · exact ⟨.star, rfl, rfl⟩
  · exact ⟨.slash, rfl, rfl⟩
  · exact ⟨.percent, rfl, rfl⟩

variable {head : Formula}

theorem said_diceSum {tail : List (Sign × Formula)} (h : Enclosed A head ws)
    (htail : OfTail A (tail.map fun t => (t.1.symbol, t.2)) vs)
    (hproper : (Shape.diceSum head tail).Proper) (hhead : Derives A head)
    (hoperands : ∀ f ∈ tail.map Prod.snd, Derives A f) :
    Said (Whole (.bare (.diceSum head tail))) (ws ++ vs) := by
  obtain ⟨hne, hdice⟩ := hproper
  have hsum : sumOf head tail = .bare (.diceSum head tail) := by
    have hdice : (head.throwsDice || tail.any fun t => t.2.throwsDice) = true := by simpa using hdice
    rw [sumOf, if_neg (by simpa using hne), if_pos hdice]
  refine .append (h.said hhead) fun ps hps => ?_
  have hfirst : Grammar (.sum head []) ps := sum_parens hps
  refine (htail.said (M := fun tail ps => Grammar (.sum head tail) ps) hoperands
    (fun op _ => ?_) hfirst).mono fun qs hqs => ⟨head, tail, hqs, hsum⟩
  obtain ⟨k, hk, hmatches, -⟩ := exists_sign? op
  exact ⟨k, hmatches, fun hacc hqs => .added hk hacc (.factor (signed_parens hqs))⟩

theorem said_product {tail : List (Operator × Formula)} (h : Enclosed A head ws)
    (htail : OfTail A (tail.map fun t => (t.1.symbol, t.2)) vs) (hne : tail ≠ [])
    (hops : ∀ t ∈ tail, t.1 ∈ [.mul, .div, .rem]) (hhead : Derives A head)
    (hoperands : ∀ f ∈ tail.map Prod.snd, Derives A f) :
    Said (Whole (.bare (.arithmetic head tail))) (ws ++ vs) := by
  have hproduct : productOf head tail = .bare (.arithmetic head tail) := by
    rw [productOf, if_neg (by simpa using hne)]
  refine .append (h.said hhead) fun ps hps => ?_
  have hfirst : Grammar (.product head []) ps := .factor (signed_parens hps)
  refine (htail.said (M := fun tail ps => Grammar (.product head tail) ps) hoperands
    (List.forall_mem_map.mpr fun t ht => ?_) hfirst).mono fun qs hqs =>
      ⟨productOf head tail, [], .summand hqs, hproduct⟩
  obtain ⟨k, hk, hmatches⟩ := exists_multiplier? (hops t ht)
  exact ⟨k, hmatches, fun hacc hqs => .times hk hacc (signed_parens hqs)⟩

theorem said_sum {tail : List (Operator × Formula)} (h : Enclosed A head ws)
    (htail : OfTail A (tail.map fun t => (t.1.symbol, t.2)) vs) (hne : tail ≠ [])
    (hops : ∀ t ∈ tail, t.1 ∈ [.add, .sub]) (hdice : head.throwsDice = false)
    (hdice' : ∀ t ∈ tail, t.2.throwsDice = false) (hhead : Derives A head)
    (hoperands : ∀ f ∈ tail.map Prod.snd, Derives A f) :
    Said (Whole (.bare (.arithmetic head tail))) (ws ++ vs) := by
  have hsign : ∀ op ∈ [Operator.add, .sub], ∃ sign : Sign, sign.toOperator = op := by
    intro op hop
    simp only [List.mem_cons, List.not_mem_nil, or_false] at hop
    rcases hop with rfl | rfl
    · exact ⟨.plus, rfl⟩
    · exact ⟨.minus, rfl⟩
  refine .append (h.said hhead) fun ps hps => ?_
  have hfirst : ∃ signs : List (Sign × Formula),
      signs.map (fun t => (t.1.toOperator, t.2)) = [] ∧ Grammar (.sum head signs) ps :=
    ⟨[], rfl, sum_parens hps⟩
  refine (htail.said (M := fun tail ps => ∃ signs : List (Sign × Formula),
      signs.map (fun t => (t.1.toOperator, t.2)) = tail ∧ Grammar (.sum head signs) ps)
    hoperands (List.forall_mem_map.mpr fun t ht => ?_) hfirst).mono fun qs hqs => ?_
  · obtain ⟨sign, hsign⟩ := hsign t.1 (hops t ht)
    obtain ⟨k, hk, -, hmatches⟩ := exists_sign? sign
    rw [← hsign]
    refine ⟨k, hmatches, ?_⟩
    rintro _ ps f qs ⟨signs, rfl, hacc⟩ hqs
    exact ⟨signs ++ [(sign, f)], List.map_append, .added hk hacc (.factor (signed_parens hqs))⟩
  · obtain ⟨signs, hsigns, hqs⟩ := hqs
    rw [List.nil_append] at hsigns
    subst hsigns
    refine ⟨head, signs, hqs, ?_⟩
    have hnone : (head.throwsDice || signs.any fun t => t.2.throwsDice) = false := by
      simpa [hdice] using List.forall_mem_map.mp hdice'
    rw [sumOf, if_neg (by simpa using hne), hnone]
    rfl

theorem said_power {f : Formula} (h : Enclosed A head ws) (htail : OfTail A [("**", f)] vs)
    (hhead : Derives A head) (hf : Derives A f) :
    Said (Whole (.bare (.arithmetic head [(.pow, f)]))) (ws ++ vs) := by
  obtain ⟨⟩ | ⟨hexponent, ⟨⟩⟩ := htail
  have hpower : Kind.starStar.Matches "**".toList := rfl
  rw [List.append_nil]
  refine .append (h.said hhead) fun ps hps => .cons hpower ?_
  exact (hexponent.said hf).mono fun qs hqs =>
    whole_signed (.power (term_parens hps) (signed_parens hqs))

end Chains

section Shapes

theorem knows_die {d : Die Formula} (h : (Shape.die d).Proper) :
    ∀ m ∈ d.mods ++ d.targets, Host.die.knows m = true := by
  refine List.forall_mem_append.mpr ⟨fun m hm => ?_, fun m hm => ?_⟩
  · simp [Host.knows, h.1 m hm]
  · simp [Host.knows, h.2 m hm]

theorem said_die {d : Die Formula} {xs : List Addition} {us : List String}
    (hcount : Enclosed A d.count ws) (hfaces : OfFaces A d.faces vs) (hd : d.Arranged xs)
    (hxs : OfAdditions A xs us) (hproper : (Shape.die d).Proper)
    (hoperands : ∀ f ∈ (Formula.die d).operands, Derives A f)
    (harguments : ∀ f ∈ (Formula.die d).arguments, Derives A f) :
    Said (Whole (.die d)) (ws ++ "d" :: vs ++ us) := by
  obtain ⟨hcount', hfaces'⟩ := List.forall_mem_cons.mp hoperands
  have hdice : Kind.dice.Matches "d".toList := rfl
  have hadditions : Said (Grammar (.additions .die false xs)) us :=
    hxs.said (fun x hx ws h => h.said
      (fun f hf => harguments f (hd.arguments hx f hf))
      fun m hm => knows_die hproper m (hd.modifiers hx m hm))
      (fun _ _ => rfl) hd.apart
  rw [List.append_assoc]
  refine .append (hcount.said hcount') fun ps hps => ?_
  refine .cons hdice (.append (hfaces.said hfaces') fun qs hqs => ?_)
  refine hadditions.mono fun rs hrs => whole_unlabeled ?_
  have hgrammar : Grammar _ (ps ++ (.dice, "d".toList) :: qs ++ rs) :=
    .dice (.count (.enclosed hps)) hqs hrs
  rwa [hd.foldl_add, List.append_assoc] at hgrammar

theorem said_members {fs : List Formula} (h : OfTail A (fs.map fun f => (",", f)) ws)
    (hfs : ∀ f ∈ fs, Derives A f) : Said (Grammar (.members fs)) ws := by
  have hcomma : Kind.comma.Matches ",".toList := rfl
  induction fs generalizing ws with
  | nil =>
    obtain ⟨⟩ := h
    exact .nil .alone
  | cons f fs ih =>
    obtain ⟨⟩ | ⟨h, hrest⟩ := h
    obtain ⟨hf, hfs⟩ := List.forall_mem_cons.mp hfs
    refine .cons hcomma (.append (h.said hf) fun ps hps => ?_)
    exact (ih hrest hfs).mono fun qs hqs => .member (sum_parens hps) hqs

theorem said_group {first : Formula} {others : List Formula} {mods : List (Modifier Formula)}
    {us : List String} (h : Enclosed A first ws)
    (hothers : OfTail A (others.map fun f => (",", f)) vs)
    (hmods : OfAdditions A (mods.map Addition.modifier) us)
    (hproper : (Shape.group first others mods).Proper)
    (hoperands : ∀ f ∈ (Formula.bare (.group first others mods)).operands, Derives A f)
    (harguments : ∀ f ∈ (Formula.bare (.group first others mods)).arguments, Derives A f) :
    Said (Whole (.bare (.group first others mods))) ("\x7b" :: ws ++ vs ++ "\x7d" :: us) := by
  obtain ⟨hfirst', hothers'⟩ := List.forall_mem_cons.mp hoperands
  have hleft : Kind.leftBrace.Matches "\x7b".toList := rfl
  have hright : Kind.rightBrace.Matches "\x7d".toList := rfl
  have hadditions : Said (Grammar (.additions .group false (mods.map Addition.modifier))) us := by
    refine hmods.said (List.forall_mem_map.mpr fun m hm ws h => ?_) (fun _ _ => rfl) ?_
    · obtain ⟨h⟩ := h
      refine h.said (fun f hf => harguments f ?_) (hproper m hm)
      exact List.mem_append_left _ (List.mem_flatMap.mpr ⟨m, hm, hf⟩)
    · refine List.Pairwise.isChain (List.pairwise_of_forall_mem_list fun x hx y _ => ?_)
      obtain ⟨m, hm, rfl⟩ := List.mem_map.mp hx
      have hknown := hproper m hm
      cases m <;> first | rfl | cases hknown
  rw [List.append_assoc, List.cons_append]
  refine .cons hleft (.append (h.said hfirst') fun ps hps => ?_)
  refine .append (said_members hothers hothers') fun qs hqs => ?_
  refine .cons hright (hadditions.mono fun rs hrs => whole_unlabeled ?_)
  have hgrammar := Grammar.group (l := "\x7b".toList) (r := "\x7d".toList) (sum_parens hps) hqs hrs
  have hmodifiers : (mods.map Addition.modifier).flatMap Addition.modifiers = mods := by
    rw [List.flatMap_map]
    exact List.flatMap_singleton' mods
  rwa [hmodifiers, List.append_assoc] at hgrammar

section Numbers

variable {i : Int64}

theorem matches_digits (h : i ≠ Int64.minValue) :
    Kind.integer.Matches (toString i.toInt.natAbs).toList := by
  obtain ⟨n, hn⟩ := exists_literal h
  obtain ⟨c, cs, htext, -⟩ := n.exists_text_eq_cons
  have hmatches : Kind.integer.Matches n.text.toList :=
    ⟨by simp [htext], fun c hc => Literal.isDigit_of_mem_text hc⟩
  rwa [Literal.text, hn] at hmatches

theorem signed_digits (h : i ≠ Int64.minValue) :
    Grammar (.signed (.int (Int64.ofInt i.toInt.natAbs)))
      [(.integer, (toString i.toInt.natAbs).toList)] := by
  obtain ⟨n, hn⟩ := exists_literal h
  have hinteger := n.integer?_text
  rw [Literal.text, hn] at hinteger
  exact .unsigned (Grammar.unlabeled (.plain (.integer hinteger)))

theorem said_number (h : i ≠ Int64.minValue) : Said (Whole (.int i)) (integerWords i) := by
  have hsigned := signed_digits h
  unfold integerWords
  split
  · rename_i hneg
    have hminus : Kind.minus.Matches "-".toList := rfl
    refine .cons hminus (.single (matches_digits h) (whole_signed ?_))
    rw [← opposite_natAbs h hneg]
    exact .minus hsigned
  · rename_i hpos
    have hvalue : Int64.ofInt i.toInt.natAbs = i := by
      rw [show (i.toInt.natAbs : Int) = i.toInt by omega, Int64.ofInt_toInt]
    rw [hvalue] at hsigned
    exact .single (matches_digits h) (whole_signed hsigned)

end Numbers

theorem said_function {g : NumericFunction} {f : Formula} (h : Enclosed A f ws)
    (hf : Derives A f) : Said (Whole (.bare (.function g f))) (g.symbol :: ws) := by
  have hfunction : ∃ k, function? k = some g ∧ k.Matches g.symbol.toList := by
    cases g
    · exact ⟨.floor, rfl, rfl⟩
    · exact ⟨.ceil, rfl, rfl⟩
    · exact ⟨.round, rfl, rfl⟩
    · exact ⟨.abs, rfl, rfl⟩
  obtain ⟨k, hk, hmatches⟩ := hfunction
  exact .cons hmatches ((h.said hf).mono fun ps hps => whole_unlabeled (.function hk hps))

theorem said_replacement {name : String} {f : Formula} (h : Enclosed A f ws) (hf : Derives A f)
    (hname : (Shape.replacement name f).Legible) :
    Said (Whole (.bare (.replacement name f))) (("@" ++ name) :: ws) := by
  obtain ⟨c, cs, hc, hstart, hrest⟩ := hname
  have hword : ("@" ++ name).toList = '@' :: c :: cs := by simp [hc]
  have hmatches : Kind.replacement.Matches ("@" ++ name).toList := ⟨c, cs, hword, hstart, hrest⟩
  refine .cons hmatches ((h.said hf).mono fun ps hps => whole_unlabeled ?_)
  have hgrammar : Grammar _ ((.replacement, ("@" ++ name).toList) :: ps) := .replacement hps
  have htext : String.ofList (("@" ++ name).toList.drop 1) = name := by simp
  rwa [htext] at hgrammar

theorem said_inline {f : Formula} (h : Said (Whole f) ws) :
    Said (Whole (.bare (.inline f))) ("[[" :: ws ++ ["]]"]) := by
  have hopen : Kind.inlineOpen.Matches "[[".toList := rfl
  have hclose : Kind.inlineClose.Matches "]]".toList := rfl
  exact .cons hopen (.append h fun ps hps => .single hclose (whole_unlabeled (hps.inline _)))

theorem trimChars_of_trimmed {label : String} (h : Trimmed label) :
    Text.trimChars label.toList = label.toList := by
  have hdrop {cs : List Char} (hcs : ∀ c ∈ cs.head?, Text.isSpace c = false) :
      cs.dropWhile Text.isSpace = cs := by
    cases cs with
    | nil => rfl
    | cons c cs => exact List.dropWhile_cons_of_neg (by simp [hcs c rfl])
  have hlast : ∀ c ∈ label.toList.reverse.head?, Text.isSpace c = false := by
    rw [List.head?_reverse]
    exact h.2
  rw [Text.trimChars, hdrop h.1, hdrop hlast, List.reverse_reverse]

theorem said_labeled {shape : Shape} {label : String} (h : Enclosed A (.bare shape) ws)
    (hf : Derives A (.bare shape)) (htrimmed : Trimmed label)
    (hlabel : ∀ c ∈ label.toList, Token.isBracket c = false) :
    Said (Whole ⟨shape, some label⟩) (ws ++ ["[" ++ label ++ "]"]) := by
  have hword : ("[" ++ label ++ "]").toList = '[' :: label.toList ++ [']'] := by simp
  have hmatches : Kind.label.Matches ("[" ++ label ++ "]").toList := ⟨_, hword, hlabel⟩
  have htext : labelText ("[" ++ label ++ "]").toList = label := by
    rw [labelText, hword]
    simp [trimChars_of_trimmed htrimmed]
  refine .append (h.said hf) fun ps hps => .single hmatches (whole_signed (.unsigned ?_))
  have hgrammar := Grammar.labels (.plain (.enclosed hps)) [("[" ++ label ++ "]").toList]
  rw [labeled, List.foldl_cons, List.foldl_nil, htext] at hgrammar
  exact hgrammar

end Shapes

section Formulas

theorem derives_bare (hA : ∀ d xs, A d xs → d.Arranged xs) {shape : Shape} (hproper : shape.Proper)
    (hlegible : shape.Legible) (hoperands : ∀ f ∈ (Formula.bare shape).operands, Derives A f)
    (harguments : ∀ f ∈ (Formula.bare shape).arguments, Derives A f) :
    Derives A (.bare shape) := by
  intro ws h
  cases h with
  | number i => exact said_number fun hi => hproper (congrArg Number.int hi)
  | die hcount hfaces hd hxs =>
    exact said_die hcount hfaces (hA _ _ hd) hxs hproper hoperands harguments
  | diceSum h htail =>
    obtain ⟨hhead, htail'⟩ := List.forall_mem_cons.mp hoperands
    exact said_diceSum h htail hproper hhead htail'
  | arithmetic h htail =>
    obtain ⟨hhead, htail'⟩ := List.forall_mem_cons.mp hoperands
    obtain ⟨hne, ⟨hops, hdice, hdice'⟩ | hops | ⟨f, rfl⟩⟩ := hproper
    · exact said_sum h htail hne hops hdice hdice' hhead htail'
    · exact said_product h htail hne hops hhead htail'
    · exact said_power h htail hhead (htail' _ List.mem_cons_self)
  | group h hothers hmods => exact said_group h hothers hmods hproper hoperands harguments
  | function g h => exact said_function h (hoperands _ List.mem_cons_self)
  | replacement name h => exact said_replacement h (hoperands _ List.mem_cons_self) hlegible
  | inline h => exact said_inline (hoperands _ List.mem_cons_self _ h)
  | inlineEnclosed h =>
    refine said_inline ((h.said (hoperands _ List.mem_cons_self)).mono fun ps hps => ?_)
    exact whole_unlabeled (.plain (.enclosed hps))

/-- What is written of a formula is derived as the formula, if additions are arranged so that none takes
up the one after it. -/
theorem derives_of_writable (hA : ∀ d xs, A d xs → d.Arranged xs) {f : Formula}
    (hf : f.Writable) : Derives A f := by
  induction f using Nested.induct with
  | step f ih =>
    obtain ⟨⟨hproper, hlegible, htrimmed⟩, hoperands, harguments⟩ := f.writable_iff.mp hf
    replace hoperands : ∀ g ∈ f.operands, Derives A g := fun g hg =>
      ih g (List.mem_append_left _ hg) (hoperands g hg)
    replace harguments : ∀ g ∈ f.arguments, Derives A g := fun g hg =>
      ih g (List.mem_append_right _ hg) (harguments g hg)
    clear ih
    obtain ⟨shape, label⟩ := f
    have hbare : Derives A (.bare shape) := by
      refine derives_bare hA hproper.1 hlegible ?_ ?_ <;> cases shape <;> assumption
    cases label with
    | none => exact hbare
    | some label =>
      intro ws h
      cases h with
      | labeled label h => exact said_labeled h hbare (htrimmed label rfl) (hproper.2 label rfl)

end Formulas

end Writing

end DiceNotation

import DiceNotation.Proofs.Token.Matching

/-! A text is tiled by its tokens. They stand one after the other on whole characters, only blanks
stand between them, and each is the longest match where it starts, or an error where nothing
matches. -/

namespace DiceNotation.Token

open Text

/-- The text starts with a bracket that the run after it does not close, and that does not open an
inline formula. -/
def Unclosed (cs run : List Char) : Prop :=
  ∃ rest, cs = '[' :: (run ++ rest) ∧ (∀ c ∈ run, isBracket c = false) ∧
    (rest = [] ∨ run ≠ [] ∧ rest.head? = some '[')

/-- A token before what comes after it in a text. -/
structure Lexical (t : Token) (after : List Char) : Prop where
  start : ∃ c cs, t.text = c :: cs ∧ isBlank c = false
  longest : t.kind ≠ .error → Longest t.kind t.text after
  unmatched : t.kind = .error → Unmatched (t.text ++ after) ∧
    ((∃ c, t.text = [c]) ∨ ∃ run, Unclosed (t.text ++ after) run ∧ t.text = '[' :: run)
  unclosed : ∀ run, Unclosed (t.text ++ after) run → t.kind = .error ∧ t.text = '[' :: run

section Brackets

variable {k : Kind} {cs run : List Char}

theorem kind_of_matches_bracket (h : k.Matches ('[' :: cs)) :
    k = .inlineOpen ∧ cs = ['['] ∨ k = .label := by
  have hhead : ∀ s ∈ Kind.spellings, s.2.toList.head? = some '[' → s = (.inlineOpen, "[[") := by
    decide +kernel
  cases hk : k.spelling? with
  | some spelling =>
    have hspelling := (Kind.matches_iff hk _).mp h
    have heq := hhead _ (Kind.mem_spellings hk) (by rw [← hspelling]; rfl)
    obtain ⟨rfl, rfl⟩ := Prod.mk.inj heq
    exact .inl ⟨rfl, (List.cons.inj hspelling).2⟩
  | none => exact .inr (manifold_of_matches hk h).symm

theorem takeWhile_of_unclosed (h : Unclosed ('[' :: cs) run) :
    cs.takeWhile (fun c => !isBracket c) = run ∧
      ∀ c ∈ (cs.dropWhile fun c => !isBracket c).head?, c = '[' ∧ run ≠ [] := by
  obtain ⟨rest, heq, hrun, hrest⟩ := h
  obtain rfl := (List.cons.inj heq).2
  have hrun' : ∀ c ∈ run, (!isBracket c) = true := by simpa using hrun
  rcases hrest with rfl | ⟨hne, hrest⟩
  · have hdrop : run.dropWhile (fun c => !isBracket c) = [] := List.dropWhile_eq_nil_iff.mpr hrun'
    rw [List.append_nil, List.takeWhile_eq_self_iff.mpr hrun', hdrop]
    exact ⟨rfl, nofun⟩
  · obtain ⟨c, rest, rfl⟩ := List.exists_cons_of_ne_nil (l := rest) (by rintro rfl; simp at hrest)
    obtain rfl := Option.some.inj hrest
    have hopen : (!isBracket '[') = false := rfl
    obtain ⟨htake, hdrop⟩ := takeWhile_eq_of_append (r := rest) hrun' hopen rfl
    rw [htake, hdrop]
    exact ⟨rfl, by simpa using hne⟩

theorem unmatched_of_unclosed (h : Unclosed cs run) : Unmatched cs := by
  intro k s hs hk
  obtain ⟨cs, rfl⟩ : ∃ ds, cs = '[' :: ds := by
    obtain ⟨rest, rfl, -⟩ := h
    exact ⟨_, rfl⟩
  obtain ⟨htake, hdrop⟩ := takeWhile_of_unclosed h
  obtain ⟨c, s, rfl⟩ := List.exists_cons_of_ne_nil hk.ne_nil
  obtain ⟨rfl, hs'⟩ := List.cons_prefix_cons.mp hs
  rcases kind_of_matches_bracket hk with ⟨rfl, rfl⟩ | rfl
  · obtain ⟨tail, rfl⟩ := hs'
    obtain rfl : [] = run := htake
    exact (hdrop '[' rfl).2 rfl
  · have hlength : labelLength ('[' :: cs) = 0 := by
      unfold labelLength
      split
      · rename_i heq
        obtain rfl := (List.cons.inj heq).2
        split
        · rename_i hclose
          rw [hclose] at hdrop
          exact absurd (hdrop ']' rfl).1 (by decide)
        · rfl
      · rfl
    have := (measures_label _).2 _ hs hk
    simp [hlength] at this

/-- A bracket at which no rule matches is not closed. -/
theorem exists_unclosed (h : Unmatched ('[' :: cs)) : ∃ run, Unclosed ('[' :: cs) run := by
  have hrun : ∀ c ∈ cs.takeWhile fun c => !isBracket c, isBracket c = false :=
    fun c hc => by simpa using List.mem_takeWhile_imp hc
  have hhead := List.head?_dropWhile_not (fun c => !isBracket c) cs
  rw [← List.takeWhile_append_dropWhile (p := fun c => !isBracket c) (l := cs)] at h ⊢
  generalize cs.takeWhile (fun c => !isBracket c) = run at h hrun ⊢
  generalize cs.dropWhile (fun c => !isBracket c) = rest at h hhead ⊢
  refine ⟨run, rest, rfl, hrun, ?_⟩
  cases rest with
  | nil => exact .inl rfl
  | cons c rest =>
    have hc : c = '[' ∨ c = ']' := by
      simpa [isBracket, Classical.or_iff_not_imp_left] using hhead
    rcases hc with rfl | rfl
    · refine .inr ⟨fun hnil => ?_, rfl⟩
      subst hnil
      exact h .inlineOpen ['[', '['] ⟨rest, rfl⟩ rfl
    · have hlabel : Kind.label.Matches ('[' :: run ++ [']']) := ⟨run, rfl, hrun⟩
      exact absurd hlabel (h _ _ ⟨rest, by simp⟩)

theorem take_errorLength (h : Unclosed cs run) : cs.take (errorLength cs) = '[' :: run := by
  have hcs := h
  obtain ⟨rest, rfl, -⟩ := hcs
  rw [errorLength, (takeWhile_of_unclosed h).1]
  simp

end Brackets

theorem errorLength_of_ne {c : Char} (h : c ≠ '[') (cs : List Char) : errorLength (c :: cs) = 1 := by
  unfold errorLength
  split
  · rename_i heq
    exact absurd (List.cons.inj heq).1 h
  · rfl

section Lexical

variable {t : Token} {c : Char} {cs after : List Char}

theorem lexical_of_longest (htext : t.text = c :: cs) (hc : isBlank c = false)
    (h : Longest t.kind t.text after) : Lexical t after where
  start := ⟨c, cs, htext, hc⟩
  longest _ := h
  unmatched herror := by
    rw [herror] at h
    exact h.1.elim
  unclosed run hrun := absurd h.1 (unmatched_of_unclosed hrun _ _ (List.prefix_append _ _))

theorem lexical_of_unmatched (hkind : t.kind = .error) (hc : isBlank c = false)
    (h : Unmatched (c :: cs)) (htext : t.text = (c :: cs).take (errorLength (c :: cs)))
    (hcs : t.text ++ after = c :: cs) : Lexical t after := by
  have hunclosed {run : List Char} (hrun : Unclosed (c :: cs) run) : t.text = '[' :: run :=
    htext.trans (take_errorLength hrun)
  have hcovers : t.text = [c] ∨ ∃ run, Unclosed (c :: cs) run ∧ t.text = c :: run := by
    by_cases hbracket : c = '['
    · subst hbracket
      obtain ⟨run, hrun⟩ := exists_unclosed h
      exact .inr ⟨run, hrun, hunclosed hrun⟩
    · exact .inl (by rw [htext, errorLength_of_ne hbracket, List.take_succ_cons, List.take_zero])
  refine ⟨?_, fun hne => absurd hkind hne, fun _ => ⟨hcs ▸ h, ?_⟩, fun run hrun => ?_⟩
  · rcases hcovers with htext | ⟨run, -, htext⟩ <;> exact ⟨c, _, htext, hc⟩
  · rw [hcs]
    exact hcovers.imp (fun htext => ⟨c, htext⟩) fun ⟨run, hrun, _⟩ => ⟨run, hrun, hunclosed hrun⟩
  · exact ⟨hkind, hunclosed (hcs ▸ hrun)⟩

end Lexical

/-- Tokens from a given byte on that tile a text. -/
inductive Tiles : Nat → List Char → List Token → Prop
  | nil (start : Nat) : Tiles start [] []
  | blank {start : Nat} {c : Char} {cs : List Char} {ts : List Token} (h : isBlank c = true)
      (rest : Tiles (start + c.utf8Size) cs ts) : Tiles start (c :: cs) ts
  | token {t : Token} {after : List Char} {ts : List Token} (h : Lexical t after)
      (stop : t.stop = t.start + byteLength t.text) (rest : Tiles t.stop after ts) :
      Tiles t.start (t.text ++ after) (t :: ts)

/-- The token that a text starts with, unless with a blank. -/
theorem lexical_lexeme {c : Char} (hc : isBlank c = false) (cs : List Char) (start stop : Nat) :
    Lexical ⟨(lexeme (c :: cs)).1, start, stop, (c :: cs).take (lexeme (c :: cs)).2⟩
      ((c :: cs).drop (lexeme (c :: cs)).2) := by
  rcases lexeme_spec (c :: cs) with ⟨k, text, after, heq, hlexeme, hlongest⟩ | ⟨hunmatched, hlexeme⟩
  · obtain ⟨d, ds, rfl⟩ := List.exists_cons_of_ne_nil hlongest.1.ne_nil
    obtain rfl := (List.cons.inj heq).1
    rw [hlexeme, heq, List.take_left' rfl, List.drop_left' rfl]
    exact lexical_of_longest rfl hc hlongest
  · rw [hlexeme]
    exact lexical_of_unmatched rfl hc hunmatched rfl (List.take_append_drop _ _)

theorem tiles_scanFrom {fuel : Nat} {cs : List Char} (h : cs.length ≤ fuel) (start : Nat) :
    Tiles start cs (scanFrom fuel start cs) := by
  induction fuel generalizing cs start with
  | zero =>
    obtain rfl := List.length_eq_zero_iff.mp (Nat.le_zero.mp h)
    exact .nil start
  | succ fuel ih =>
    cases cs with
    | nil => exact .nil start
    | cons c cs =>
      rw [List.length_cons, Nat.succ_le_succ_iff] at h
      rw [scanFrom]
      split
      · rename_i hc
        exact .blank hc (ih h _)
      · rename_i hc
        have hlexical := lexical_lexeme (Bool.eq_false_iff.mpr hc) cs start
          (start + byteLength ((c :: cs).take (lexeme (c :: cs)).2))
        obtain ⟨d, ds, htext, -⟩ := hlexical.start
        have hlength : ((c :: cs).drop (lexeme (c :: cs)).2).length ≤ fuel := by
          have htake := congrArg List.length htext
          simp only [List.length_take, List.length_drop, List.length_cons] at htake ⊢
          omega
        have htiles := Tiles.token hlexical rfl (ih hlength _)
        rwa [List.take_append_drop] at htiles

section Spans

variable {start : Nat} {cs : List Char} {ts : List Token}

theorem Tiles.start_le (h : Tiles start cs ts) : ∀ t ∈ ts, start ≤ t.start := by
  induction h with
  | nil => exact List.forall_mem_nil _
  | blank hc rest ih => exact fun t ht => Nat.le_of_add_right_le (ih t ht)
  | token hlexical stop rest ih =>
    refine List.forall_mem_cons.mpr ⟨Nat.le_refl _, fun u hu => ?_⟩
    have := ih u hu
    omega

theorem Tiles.pairwise (h : Tiles start cs ts) : ts.Pairwise fun t u => t.stop ≤ u.start := by
  induction h with
  | nil => exact .nil
  | blank hc rest ih => exact ih
  | token hlexical stop rest ih => exact .cons rest.start_le ih

theorem Tiles.exists_append (h : Tiles start cs ts) : ∀ t ∈ ts, ∃ before after,
    cs = before ++ t.text ++ after ∧ t.start = start + byteLength before ∧
      t.stop = t.start + byteLength t.text ∧ Lexical t after := by
  induction h with
  | nil => exact List.forall_mem_nil _
  | @blank start c cs ts hc rest ih =>
    intro t ht
    obtain ⟨before, after, rfl, hstart, hstop, hlexical⟩ := ih t ht
    refine ⟨c :: before, after, rfl, ?_, hstop, hlexical⟩
    rw [hstart, byteLength, Nat.add_assoc]
  | @token t after ts hlexical stop rest ih =>
    refine List.forall_mem_cons.mpr ⟨⟨[], after, rfl, rfl, stop, hlexical⟩, fun u hu => ?_⟩
    obtain ⟨before, after, rfl, hstart, hstop, hlexical⟩ := ih u hu
    refine ⟨t.text ++ before, after, by simp, ?_, hstop, hlexical⟩
    rw [hstart, stop, byteLength_append, Nat.add_assoc]

/-- A byte that no token covers is that of a blank. -/
theorem Tiles.isBlank_of_uncovered (h : Tiles start cs ts) {before after : List Char} {c : Char}
    {i : Nat} (hcs : cs = before ++ c :: after) (hi : i < c.utf8Size)
    (hc : ∀ t ∈ ts, start + byteLength before + i < t.start ∨
      t.stop ≤ start + byteLength before + i) : isBlank c = true := by
  induction h generalizing before with
  | nil => simp at hcs
  | @blank start d cs ts hd rest ih =>
    cases before with
    | nil =>
      obtain rfl := (List.cons.inj hcs).1
      exact hd
    | cons b before =>
      obtain ⟨rfl, rfl⟩ := List.cons.inj hcs
      refine ih rfl fun t ht => ?_
      have := hc t ht
      rw [byteLength] at this
      omega
  | @token t rest ts hlexical stop tail ih =>
    obtain ⟨hfirst, hothers⟩ := List.forall_mem_cons.mp hc
    have hlength : byteLength t.text ≤ byteLength before + i := by omega
    obtain ⟨middle, rfl, hmiddle⟩ : ∃ middle, before = t.text ++ middle ∧
        rest = middle ++ c :: after := by
      rcases List.append_eq_append_iff.mp hcs with ⟨middle, hbefore, hrest⟩ | ⟨middle, htext, hrest⟩
      · exact ⟨middle, hbefore, hrest⟩
      · cases middle with
        | nil => exact ⟨[], by simp [htext], hrest.symm⟩
        | cons d middle =>
          obtain rfl := (List.cons.inj hrest).1
          rw [htext, byteLength_append, byteLength] at hlength
          omega
    rw [byteLength_append] at hothers
    refine ih hmiddle fun u hu => ?_
    have := hothers u hu
    omega

end Spans

/-- Scanning tiles the text by longest match. The tokens stand in order, each on whole characters and
none empty; a byte that they leave out is that of a blank. A token is the longest match of any rule
where it starts, and its kind is the only one that matches there so long; where no rule matches an
error covers one character, or an unclosed bracket with its run. -/
theorem scan_tiles (text : String) :
    (scan text.toList).Pairwise (fun t u => t.stop ≤ u.start) ∧
      (∀ t ∈ scan text.toList, ∃ before after, text.toList = before ++ t.text ++ after ∧
        t.start = byteLength before ∧ t.stop = byteLength (before ++ t.text) ∧ Lexical t after) ∧
      ∀ before c after i, text.toList = before ++ c :: after → i < c.utf8Size →
        (∀ t ∈ scan text.toList,
          byteLength before + i < t.start ∨ t.stop ≤ byteLength before + i) →
          c ∈ [' ', '\t', '\r', '\n'] := by
  have htiles : Tiles 0 text.toList (scan text.toList) := tiles_scanFrom (Nat.le_refl _) 0
  refine ⟨htiles.pairwise, fun t ht => ?_, fun before c after i hcs hi hc => ?_⟩
  · obtain ⟨before, after, hcs, hstart, hstop, hlexical⟩ := htiles.exists_append t ht
    rw [Nat.zero_add] at hstart
    exact ⟨before, after, hcs, hstart, by rw [hstop, hstart, byteLength_append], hlexical⟩
  · have hblank := htiles.isBlank_of_uncovered hcs hi (by simpa using hc)
    simpa [isBlank, or_assoc] using hblank

end DiceNotation.Token

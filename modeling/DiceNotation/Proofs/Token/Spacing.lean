import DiceNotation.Proofs.Token.Spelling
import DiceNotation.Proofs.Token.Tiling

/-! Tokens with blanks between them. What a rule matches is read as one token before any blank, and
the tokens of a text stay what they are where a blank cuts off what comes after them: only labels
have blanks inside, and nothing that a rule matches is the start of a label but the label itself. -/

namespace DiceNotation.Token

open Text

section Blanks

variable {k l : Kind} {s text before after rest : List Char} {c : Char}

theorem isBlank_eq_false {p : Char → Bool} (hp : [' ', '\t', '\r', '\n'].any p = false)
    (hc : p c = true) : isBlank c = false := by
  refine Bool.eq_false_iff.mpr fun hblank => ?_
  have hmem : c ∈ [' ', '\t', '\r', '\n'] := by simpa [isBlank, or_assoc] using hblank
  exact List.any_eq_false.mp hp c hmem hc

/-- Only labels have blanks inside. -/
theorem Kind.Matches.isBlank_eq_false (h : k.Matches text) (hk : k ≠ .label) :
    ∀ c ∈ text, isBlank c = false := by
  intro c hc
  cases hspelling : k.spelling? with
  | some spelling =>
    have hall : ∀ s ∈ spellings, s.2.toList.any isBlank = false := by decide +kernel
    rw [(matches_iff hspelling _).mp h] at hc
    exact Bool.eq_false_iff.mpr (List.any_eq_false.mp (hall _ (mem_spellings hspelling)) c hc)
  | none =>
    unfold Kind.Matches at h
    rw [hspelling] at h
    split at h
    · cases ‹none = some _›
    · exact isBlank_of_isDigit (h.2 c hc)
    · obtain ⟨whole, part, rfl, -, hdigits⟩ := h
      rcases List.mem_append.mp hc with hc | hc
      · exact isBlank_of_isDigit (hdigits c (List.mem_append_left _ hc))
      · rcases List.mem_cons.mp hc with rfl | hc
        · rfl
        · exact isBlank_of_isDigit (hdigits c (List.mem_append_right _ hc))
    · obtain ⟨d, name, rfl, hd, hname⟩ := h
      rcases List.mem_cons.mp hc with rfl | hc
      · rfl
      · rcases List.mem_cons.mp hc with rfl | hc
        · exact Token.isBlank_eq_false rfl hd
        · exact Token.isBlank_eq_false rfl (hname c hc)
    · exact absurd rfl hk
    · exact h.elim

theorem Kind.Matches.start (h : k.Matches text) : ∃ c cs, text = c :: cs ∧ isBlank c = false := by
  obtain ⟨c, cs, rfl⟩ := List.exists_cons_of_ne_nil h.ne_nil
  refine ⟨c, cs, rfl, ?_⟩
  by_cases hk : k = .label
  · subst hk
    obtain ⟨run, heq, -⟩ := h
    obtain rfl := (List.cons.inj heq).1
    rfl
  · exact h.isBlank_eq_false hk c List.mem_cons_self

/-- A label ends at the first bracket that closes it. -/
theorem Kind.Matches.eq_of_prefix_label (h : k.Matches text) (hs : Kind.label.Matches s)
    (hle : text <+: s) : text = s := by
  obtain ⟨run, rfl, hrun⟩ := hs
  obtain ⟨c, cs, rfl⟩ := List.exists_cons_of_ne_nil h.ne_nil
  obtain ⟨rfl, hcs⟩ := List.cons_prefix_cons.mp hle
  rcases kind_of_matches_bracket h with ⟨-, rfl⟩ | rfl
  · cases run with
    | nil => simp at hcs
    | cons d run =>
      obtain rfl := (List.cons_prefix_cons.mp hcs).1
      exact absurd (hrun _ List.mem_cons_self) (by decide)
  · obtain ⟨run', heq, hrun'⟩ := h
    obtain rfl : cs = run' ++ [']'] := (List.cons.inj heq).2
    obtain ⟨tail, htail⟩ : run' ++ [']'] <+: run ++ [']'] := hcs
    have hends {run tail : List Char} (hrun : ∀ c ∈ run, isBracket c = false) :
        (run ++ ']' :: tail).takeWhile (fun c => !isBracket c) = run :=
      (takeWhile_eq_of_append (p := fun c => !isBracket c) (fun c hc => by simp [hrun c hc]) rfl
        rfl).1
    rw [List.append_assoc, List.singleton_append] at htail
    rw [← hends hrun', htail, hends hrun]
    rfl

/-- What a blank cuts off has no part in the longest match before it. -/
theorem Longest.cut (h : Longest k text (before ++ after)) (hc : isBlank c = true)
    (rest : List Char) : Longest k text (before ++ c :: rest) := by
  refine longest_of_le h.1 fun l s hs hl => ?_
  have hkept : text ++ before ++ [c] <+: text ++ (before ++ c :: rest) := ⟨rest, by simp⟩
  rcases Nat.lt_or_ge s.length (text ++ before ++ [c]).length with hlt | hge
  · have hs : s <+: text ++ before := by
      refine List.prefix_of_prefix_length_le hs ((List.prefix_append _ [c]).trans hkept) ?_
      rw [List.length_append, List.length_singleton] at hlt
      exact Nat.le_of_lt_succ hlt
    exact (h.2 l s (hs.trans ⟨after, by simp⟩) hl).1
  · have hs : text ++ before ++ [c] <+: s := List.prefix_of_prefix_length_le hkept hs hge
    have hmem : c ∈ s := hs.subset (by simp)
    have hlabel : l = .label := by
      by_contra hne
      simp [hl.isBlank_eq_false hne c hmem] at hc
    subst hlabel
    rw [h.1.eq_of_prefix_label hl (.trans ⟨before ++ [c], by simp⟩ hs)]

theorem longest_nil (h : k.Matches text) : Longest k text [] :=
  longest_of_le h fun l s hs _ => by simpa using hs.length_le

/-- No token but the minus sign starts with one. -/
theorem eq_of_matches_minus {cs : List Char} (h : k.Matches ('-' :: cs)) : cs = [] := by
  have hhead : ∀ s ∈ Kind.spellings, s.2.toList.head? = some '-' → s.2 = "-" := by decide +kernel
  cases hspelling : k.spelling? with
  | some spelling =>
    have heq := (Kind.matches_iff hspelling _).mp h
    have hminus : spelling = "-" := hhead _ (Kind.mem_spellings hspelling) (by simp [← heq])
    rw [hminus] at heq
    exact (List.cons.inj heq).2
  | none =>
    unfold Kind.Matches at h
    rw [hspelling] at h
    split at h
    · cases ‹none = some _›
    · exact absurd (h.2 '-' List.mem_cons_self) (by decide)
    · obtain ⟨whole, part, heq, -, hdigits⟩ := h
      cases whole with
      | nil => simp at heq
      | cons d whole =>
        obtain rfl := (List.cons.inj heq).1
        exact absurd (hdigits '-' List.mem_cons_self) (by decide)
    · obtain ⟨d, name, heq, -⟩ := h
      simp at heq
    · obtain ⟨run, heq, -⟩ := h
      simp at heq
    · exact h.elim

theorem longest_minus (h : k.Matches ['-']) (rest : List Char) : Longest k ['-'] rest := by
  refine longest_of_le h fun l s hs hl => ?_
  cases s with
  | nil => exact Nat.zero_le _
  | cons c s =>
    obtain ⟨rfl, -⟩ := List.cons_prefix_cons.mp hs
    rw [eq_of_matches_minus hl]

theorem Longest.spells {ps : List Piece} (h : Longest k text rest) (hrest : Spells rest ps) :
    Spells (text ++ rest) ((k, text) :: ps) := by
  have hlexeme := lexeme_of_longest h
  obtain ⟨c, cs, rfl, hc⟩ := h.1.start
  exact .cons hc hlexeme hrest

end Blanks

/-- Some rule or other matches the text of each piece, as the rule of its kind. -/
def Genuine (ps : List Piece) : Prop :=
  ∀ p ∈ ps, p.1.Matches p.2

/-- The text has these words in order, with blanks between any two of them; only after a minus sign
there may be none. -/
inductive Spaced : List (List Char) → List Char → Prop
  | nil : Spaced [] []
  | gap {c : Char} {cs : List Char} {ws : List (List Char)} (hc : isBlank c = true)
      (rest : Spaced ws cs) : Spaced ws (c :: cs)
  | cons {w cs : List Char} {ws : List (List Char)}
      (hw : w = ['-'] ∨ ∀ c ∈ cs.head?, isBlank c = true) (rest : Spaced ws cs) :
      Spaced (w :: ws) (w ++ cs)

theorem Spaced.spells {ps : List Piece} {cs : List Char} (h : Spaced (ps.map Prod.snd) cs)
    (hps : Genuine ps) : Spells cs ps := by
  generalize hws : ps.map Prod.snd = ws at h
  induction h generalizing ps with
  | nil =>
    obtain rfl := List.map_eq_nil_iff.mp hws
    exact .nil
  | gap hc rest ih => exact (ih hps hws).gap hc
  | @cons w cs ws hw rest ih =>
    obtain ⟨⟨k, text⟩, qs, rfl, rfl, hqs⟩ := List.map_eq_cons_iff.mp hws
    obtain ⟨hk, hps⟩ := List.forall_mem_cons.mp hps
    refine Longest.spells ?_ (ih hps hqs)
    rcases hw with rfl | hcs
    · exact longest_minus hk cs
    · cases cs with
      | nil => exact longest_nil hk
      | cons c cs =>
        have hend : Longest k text ([] ++ []) := longest_nil hk
        exact hend.cut (hcs c rfl) cs

/-- A text of the words, with a blank between any two. -/
def spacedText (ws : List (List Char)) : List Char :=
  [' '].intercalate ws

theorem spaced_spacedText (ws : List (List Char)) : Spaced ws (spacedText ws) := by
  induction ws with
  | nil => exact .nil
  | cons w ws ih =>
    cases ws with
    | nil => simpa [spacedText] using Spaced.cons (.inr (by simp)) (w := w) .nil
    | cons v ws => exact .cons (.inr (by simp [isBlank])) (.gap rfl ih)

/-- A text can be cut after any of its tokens, and goes on after a blank with whatever is wanted, if
there is no error before the cut. -/
theorem Tiles.cut {start : Nat} {cs : List Char} {vs : List Token} (h : Tiles start cs vs)
    {ts us : List Token} (hvs : vs = ts ++ us) (hts : ∀ t ∈ ts, t.kind ≠ .error) :
    ∃ before after, cs = before ++ after ∧ (ts = [] → before = []) ∧
      (∀ t ∈ ts.getLast?, start + byteLength before = t.stop) ∧
      ∀ rest ps, Spells rest ps → Spells (before ++ ' ' :: rest) (ts.map piece ++ ps) := by
  have hnil {cs : List Char} {start : Nat} : ∃ before after, cs = before ++ after ∧
      (([] : List Token) = [] → before = []) ∧
      (∀ t ∈ ([] : List Token).getLast?, start + byteLength before = t.stop) ∧
      ∀ rest ps, Spells rest ps → Spells (before ++ ' ' :: rest) (([] : List Token).map piece ++ ps) :=
    ⟨[], cs, rfl, fun _ => rfl, nofun, fun rest ps hrest => hrest.blank⟩
  induction h generalizing ts with
  | nil start =>
    obtain ⟨rfl, -⟩ := List.append_eq_nil_iff.mp hvs.symm
    exact hnil
  | @blank start c cs vs hc rest ih =>
    cases ts with
    | nil => exact hnil
    | cons t ts =>
      obtain ⟨before, after, rfl, -, hstop, hspells⟩ := ih hvs hts
      refine ⟨c :: before, after, rfl, nofun, fun u hu => ?_, fun rest ps hrest => ?_⟩
      · rw [byteLength, ← Nat.add_assoc, hstop u hu]
      · exact (hspells rest ps hrest).gap hc
  | @token t after vs hlexical stop rest ih =>
    cases ts with
    | nil => exact hnil
    | cons t' ts =>
      obtain ⟨rfl, hus⟩ := List.cons.inj hvs
      obtain ⟨hk, hts⟩ := List.forall_mem_cons.mp hts
      obtain ⟨before, after, rfl, hempty, hlast, hspells⟩ := ih hus hts
      refine ⟨t.text ++ before, after, by simp, nofun, fun u hu => ?_, fun rest ps hrest => ?_⟩
      · rw [byteLength_append, ← Nat.add_assoc, ← stop]
        cases ts with
        | nil =>
          obtain rfl : t = u := by simpa using hu
          simp [hempty rfl, byteLength]
        | cons v ts => exact hlast u (by simpa using hu)
      · rw [List.append_assoc]
        exact ((hlexical.longest hk).cut rfl rest).spells (hspells rest ps hrest)

end DiceNotation.Token

import DiceNotation.Token.Scan
import Mathlib.Data.List.TakeWhile

/-! What the rules of the notation match. A rule is a set of texts; a token is the longest start of
what is left that some rule matches, and no two rules match one text. -/

namespace DiceNotation.Token

namespace Kind

/-- The texts that the rule of a kind matches: its spelling, or those of the kinds that have many. No
rule is one for errors. -/
def Matches (k : Kind) (cs : List Char) : Prop :=
  match k.spelling?, k with
  | some spelling, _ => cs = spelling.toList
  | none, .integer => cs ≠ [] ∧ ∀ c ∈ cs, c.isDigit = true
  | none, .decimal => ∃ whole part, cs = whole ++ '.' :: part ∧ part ≠ [] ∧
      ∀ c ∈ whole ++ part, c.isDigit = true
  | none, .replacement => ∃ c name, cs = '@' :: c :: name ∧ isNameStart c = true ∧
      ∀ c ∈ name, isNameRest c = true
  | none, .label => ∃ text, cs = '[' :: text ++ [']'] ∧ ∀ c ∈ text, isBracket c = false
  | none, _ => False

theorem spelling?_of_mem : ∀ s ∈ spellings, s.1.spelling? = some s.2 := by
  decide

theorem mem_spellings {k : Kind} {spelling : String} (h : k.spelling? = some spelling) :
    (k, spelling) ∈ spellings := by
  obtain ⟨l₁, l₂, heq, -⟩ := List.lookup_eq_some_iff.mp h
  rw [heq]
  exact List.mem_append_right _ List.mem_cons_self

theorem matches_iff {k : Kind} {spelling : String} (h : k.spelling? = some spelling)
    (cs : List Char) : k.Matches cs ↔ cs = spelling.toList := by
  unfold Matches
  rw [h]

end Kind

/-- The function gives the length of the longest start of a text that the rule matches, or zero if it
matches none. -/
def Measures (k : Kind) (length : List Char → Nat) : Prop :=
  ∀ cs, (length cs ≠ 0 → ∃ s, s <+: cs ∧ s.length = length cs ∧ k.Matches s) ∧
    ∀ s, s <+: cs → k.Matches s → s.length ≤ length cs

section Runs

variable {α : Type} {p : α → Bool} {s cs : List α}

theorem length_le_takeWhile (h : s <+: cs) (hs : ∀ c ∈ s, p c = true) :
    s.length ≤ (cs.takeWhile p).length := by
  obtain ⟨rest, rfl⟩ := h
  rw [List.takeWhile_append_of_pos hs, List.length_append]
  exact Nat.le_add_right _ _

/-- Where two runs of `p` end before an element that fails it, they are one. -/
theorem takeWhile_eq_of_append {c : α} {r : List α} (hs : ∀ c ∈ s, p c = true)
    (hc : p c = false) (hcs : cs = s ++ c :: r) :
    cs.takeWhile p = s ∧ cs.dropWhile p = c :: r := by
  subst hcs
  rw [List.takeWhile_append_of_pos hs, List.dropWhile_append_of_pos hs,
    List.takeWhile_cons_of_neg (by simp [hc]), List.dropWhile_cons_of_neg (by simp [hc]),
    List.append_nil]
  exact ⟨rfl, rfl⟩

end Runs

theorem measures_fixed {k : Kind} {spelling : String}
    (h : ∀ cs, k.Matches cs ↔ cs = spelling.toList) : Measures k (fixedLength spelling.toList) := by
  intro cs
  constructor
  · intro hlength
    unfold fixedLength at hlength ⊢
    split at hlength
    · rename_i hprefix
      rw [if_pos hprefix]
      exact ⟨_, List.isPrefixOf_iff_prefix.mp hprefix, rfl, (h _).mpr rfl⟩
    · exact absurd rfl hlength
  · intro s hs hmatches
    obtain rfl := (h s).mp hmatches
    rw [fixedLength, if_pos (List.isPrefixOf_iff_prefix.mpr hs)]

theorem measures_integer : Measures .integer digitRun := by
  refine fun cs => ⟨fun hlength => ⟨_, List.takeWhile_prefix _, rfl, ?_, ?_⟩, ?_⟩
  · exact fun hnil => hlength (by rw [digitRun, hnil, List.length_nil])
  · exact fun c hc => List.mem_takeWhile_imp hc
  · exact fun s hs hmatches => length_le_takeWhile hs hmatches.2

theorem measures_decimal : Measures .decimal decimalLength := by
  intro cs
  constructor
  · intro hlength
    unfold decimalLength at hlength ⊢
    split at hlength
    · rename_i rest hrest
      split at hlength
      · exact absurd rfl hlength
      · rename_i hrun
        simp only [if_neg hrun]
        refine ⟨cs.takeWhile Char.isDigit ++ '.' :: rest.takeWhile Char.isDigit, ?_, ?_, _, _, rfl,
          ?_, ?_⟩
        · obtain ⟨tail, htail⟩ := List.takeWhile_prefix (p := Char.isDigit) (l := rest)
          refine ⟨tail, ?_⟩
          rw [List.append_assoc, List.cons_append, htail, ← hrest, List.takeWhile_append_dropWhile]
        · simp only [List.length_append, List.length_cons, digitRun]
          omega
        · exact fun hnil => hrun (by rw [digitRun, hnil, List.length_nil])
        · intro c hc
          exact (List.mem_append.mp hc).elim List.mem_takeWhile_imp List.mem_takeWhile_imp
    · exact absurd rfl hlength
  · rintro s ⟨tail, rfl⟩ ⟨whole, part, rfl, hpart, hdigits⟩
    obtain ⟨hwhole, hpart'⟩ := List.forall_mem_append.mp hdigits
    have hcs : whole ++ '.' :: part ++ tail = whole ++ '.' :: (part ++ tail) := by simp
    obtain ⟨htake, hdrop⟩ := takeWhile_eq_of_append hwhole (by decide) hcs
    have hrun : part.length ≤ digitRun (part ++ tail) :=
      length_le_takeWhile (List.prefix_append _ _) hpart'
    have hpos := List.length_pos_iff.mpr hpart
    have hwhole : digitRun (whole ++ '.' :: part ++ tail) = whole.length := by rw [digitRun, htake]
    simp only [decimalLength, hdrop, hwhole, if_neg (show ¬ digitRun (part ++ tail) = 0 by omega),
      List.length_append, List.length_cons]
    omega

theorem measures_replacement : Measures .replacement replacementLength := by
  intro cs
  constructor
  · intro hlength
    unfold replacementLength at hlength ⊢
    split at hlength
    · rename_i c rest
      split at hlength
      · rename_i hc
        simp only [if_pos hc]
        refine ⟨'@' :: c :: rest.takeWhile isNameRest, ?_, rfl, c, _, rfl, hc, ?_⟩
        · simpa using List.takeWhile_prefix _
        · exact fun d hd => List.mem_takeWhile_imp hd
      · exact absurd rfl hlength
    · exact absurd rfl hlength
  · rintro s ⟨tail, rfl⟩ ⟨c, name, rfl, hc, hname⟩
    have hrun : name.length ≤ ((name ++ tail).takeWhile isNameRest).length :=
      length_le_takeWhile (List.prefix_append _ _) hname
    simp only [List.cons_append, replacementLength, if_pos hc, List.length_cons]
    omega

theorem measures_label : Measures .label labelLength := by
  intro cs
  constructor
  · intro hlength
    unfold labelLength at hlength ⊢
    split at hlength
    · rename_i rest
      split at hlength
      · rename_i tail htail
        refine ⟨'[' :: rest.takeWhile (fun c => !isBracket c) ++ [']'], ⟨tail, ?_⟩, by simp, _,
          rfl, ?_⟩
        · rw [List.append_assoc, List.singleton_append, ← htail, List.cons_append,
            List.takeWhile_append_dropWhile]
        · intro c hc
          simpa using List.mem_takeWhile_imp hc
      · exact absurd rfl hlength
    · exact absurd rfl hlength
  · rintro s ⟨tail, rfl⟩ ⟨text, rfl, htext⟩
    have hcs : '[' :: text ++ [']'] ++ tail = '[' :: (text ++ ']' :: tail) := by simp
    have htext' : ∀ c ∈ text, (!isBracket c) = true := by simpa using htext
    have hclose : (!isBracket ']') = false := rfl
    obtain ⟨htake, hdrop⟩ := takeWhile_eq_of_append (r := tail) htext' hclose rfl
    rw [hcs]
    simp [labelLength, hdrop, htake]

theorem measures_of_mem_rules : ∀ r ∈ rules, Measures r.1 r.2 := by
  refine List.forall_mem_append.mpr ⟨List.forall_mem_map.mpr fun s hs => ?_, ?_⟩
  · exact measures_fixed (Kind.matches_iff (Kind.spelling?_of_mem s hs))
  · simp only [List.forall_mem_cons]
    exact ⟨measures_integer, measures_decimal, measures_replacement, measures_label, nofun⟩

theorem exists_rule_of_matches {k : Kind} {cs : List Char} (h : k.Matches cs) :
    ∃ length, (k, length) ∈ rules := by
  unfold Kind.Matches at h
  split at h
  · rename_i hk
    exact ⟨_, List.mem_append_left _ (List.mem_map.mpr ⟨_, Kind.mem_spellings hk, rfl⟩)⟩
  · exact ⟨digitRun, by simp [rules]⟩
  · exact ⟨decimalLength, by simp [rules]⟩
  · exact ⟨replacementLength, by simp [rules]⟩
  · exact ⟨labelLength, by simp [rules]⟩
  · exact h.elim

theorem Kind.Matches.ne_nil {k : Kind} {cs : List Char} (h : k.Matches cs) : cs ≠ [] := by
  unfold Kind.Matches at h
  split at h
  · rename_i hk
    have hne : ∀ s ∈ spellings, s.2.toList ≠ [] := by decide +kernel
    exact h ▸ hne _ (mem_spellings hk)
  · exact h.1
  · obtain ⟨whole, part, rfl, -, -⟩ := h
    simp
  · obtain ⟨c, name, rfl, -, -⟩ := h
    simp
  · obtain ⟨text, rfl, -⟩ := h
    simp
  · exact h.elim

/-- Which of the rules that have no one spelling a text could match. -/
def manifold : List Char → Kind
  | '@' :: _ => .replacement
  | '[' :: _ => .label
  | cs => if cs.all Char.isDigit then .integer else .decimal

theorem manifold_eq {c : Char} {cs : List Char} (h : c.isDigit = true ∨ c = '.') :
    manifold (c :: cs) = if (c :: cs).all Char.isDigit then .integer else .decimal := by
  unfold manifold
  split
  · rename_i heq
    obtain rfl := (List.cons.inj heq).1
    simp at h
  · rename_i heq
    obtain rfl := (List.cons.inj heq).1
    simp at h
  · rfl

theorem manifold_of_matches {k : Kind} {cs : List Char} (hk : k.spelling? = none)
    (h : k.Matches cs) : manifold cs = k := by
  unfold Kind.Matches at h
  split at h
  · simp_all
  · obtain ⟨hne, hdigits⟩ := h
    obtain ⟨c, cs, rfl⟩ := List.exists_cons_of_ne_nil hne
    rw [manifold_eq (.inl (hdigits c List.mem_cons_self)), if_pos (List.all_eq_true.mpr hdigits)]
  · obtain ⟨whole, part, rfl, -, hdigits⟩ := h
    have hpoint : (whole ++ '.' :: part).all Char.isDigit = false :=
      List.all_eq_false.mpr ⟨'.', by simp, by decide⟩
    cases whole with
    | nil => rw [List.nil_append, manifold_eq (.inr rfl), if_neg (by simp)]
    | cons c whole =>
      rw [List.cons_append, manifold_eq (.inl (hdigits c (by simp))), ← List.cons_append,
        hpoint, if_neg Bool.false_ne_true]
  · obtain ⟨c, name, rfl, -, -⟩ := h
    rfl
  · obtain ⟨text, rfl, -⟩ := h
    rfl
  · exact h.elim

/-- A spelling matches no rule without one. -/
theorem spelling?_of_matches {k : Kind} {s : Kind × String} (hs : s ∈ Kind.spellings)
    (h : k.Matches s.2.toList) : k.spelling? = some s.2 := by
  have hzero : ∀ s ∈ Kind.spellings, s.2.toList ≠ [] ∧
      ∀ r ∈ rules, r.1.spelling? = none → r.2 s.2.toList = 0 := by
    decide +kernel
  obtain ⟨hne, hzero⟩ := hzero s hs
  have hpos := List.length_pos_iff.mpr hne
  cases hk : k.spelling? with
  | some spelling => rw [String.toList_inj.mp ((Kind.matches_iff hk _).mp h)]
  | none =>
    obtain ⟨length, hrule⟩ := exists_rule_of_matches h
    have hle := (measures_of_mem_rules _ hrule s.2.toList).2 _ (List.prefix_refl _) h
    have hzero := hzero _ hrule hk
    dsimp only at hle hzero
    omega

theorem Kind.Matches.unique {k l : Kind} {cs : List Char} (hk : k.Matches cs) (hl : l.Matches cs) :
    k = l := by
  have hdistinct : ∀ s ∈ spellings, ∀ s' ∈ spellings, s.2 = s'.2 → s.1 = s'.1 := by
    decide +kernel
  have hspelled {k l : Kind} {spelling : String} (hk : k.spelling? = some spelling)
      (hl : l.Matches spelling.toList) : k = l := by
    have hmem := mem_spellings hk
    exact hdistinct _ hmem _ (mem_spellings (spelling?_of_matches hmem hl)) rfl
  cases hks : k.spelling? with
  | some spelling =>
    obtain rfl := (matches_iff hks cs).mp hk
    exact hspelled hks hl
  | none =>
    cases hls : l.spelling? with
    | some spelling =>
      obtain rfl := (matches_iff hls cs).mp hl
      exact (hspelled hls hk).symm
    | none => rw [← manifold_of_matches hks hk, manifold_of_matches hls hl]

/-- The text is the longest start of itself and what comes after it that any rule matches, and it is
the rule of the kind that matches it. -/
def Longest (k : Kind) (text after : List Char) : Prop :=
  k.Matches text ∧ ∀ l s, s <+: text ++ after → l.Matches s →
    s.length ≤ text.length ∧ (s.length = text.length → l = k)

theorem longest_of_le {k : Kind} {text after : List Char} (h : k.Matches text)
    (hle : ∀ (l : Kind) s, s <+: text ++ after → l.Matches s → s.length ≤ text.length) :
    Longest k text after := by
  refine ⟨h, fun l s hs hl => ⟨hle l s hs hl, fun hlength => ?_⟩⟩
  have hprefix := List.prefix_of_prefix_length_le hs (List.prefix_append text after) hlength.le
  obtain rfl := hprefix.eq_of_length hlength
  exact hl.unique h

/-- No rule matches a start of the text. -/
def Unmatched (cs : List Char) : Prop :=
  ∀ (k : Kind) s, s <+: cs → ¬ k.Matches s

theorem foldl_longer (best : Kind × Nat) (rs : List (Kind × Nat)) :
    (rs.foldl longer best = best ∨ rs.foldl longer best ∈ rs) ∧
      best.2 ≤ (rs.foldl longer best).2 ∧ ∀ r ∈ rs, r.2 ≤ (rs.foldl longer best).2 := by
  induction rs generalizing best with
  | nil => simp
  | cons r rs ih =>
    have hlonger : (longer best r = best ∨ longer best r = r) ∧ best.2 ≤ (longer best r).2 ∧
        r.2 ≤ (longer best r).2 := by
      unfold longer
      split
      · exact ⟨.inr rfl, by omega, Nat.le_refl _⟩
      · exact ⟨.inl rfl, Nat.le_refl _, by omega⟩
    obtain ⟨hfound, hbest, hr⟩ := hlonger
    obtain ⟨hmem, hle, hall⟩ := ih (longer best r)
    rw [List.foldl_cons]
    refine ⟨?_, by omega, List.forall_mem_cons.mpr ⟨by omega, hall⟩⟩
    rcases hmem with hmem | hmem
    · rw [hmem]
      exact hfound.imp id fun heq => by rw [heq]; exact List.mem_cons_self
    · exact .inr (List.mem_cons_of_mem _ hmem)

/-- Either some rule matches, and the token is the longest match, or none does. -/
theorem lexeme_spec (cs : List Char) :
    (∃ k text after, cs = text ++ after ∧ lexeme cs = (k, text.length) ∧ Longest k text after) ∨
      Unmatched cs ∧ lexeme cs = (.error, errorLength cs) := by
  obtain ⟨hmem, -, hall⟩ := foldl_longer (.error, 0) (rules.map fun r => (r.1, r.2 cs))
  have hle {l : Kind} {s : List Char} (hs : s <+: cs) (hl : l.Matches s) :
      s.length ≤ ((rules.map fun r => (r.1, r.2 cs)).foldl longer (.error, 0)).2 := by
    obtain ⟨length, hrule⟩ := exists_rule_of_matches hl
    exact ((measures_of_mem_rules _ hrule cs).2 s hs hl).trans
      (hall _ (List.mem_map.mpr ⟨_, hrule, rfl⟩))
  unfold lexeme
  generalize (rules.map fun r => (r.1, r.2 cs)).foldl longer (.error, 0) = best at hmem hle
  by_cases hzero : best.2 = 0
  · refine .inr ⟨fun l s hs hl => ?_, if_pos hzero⟩
    have hpos := List.length_pos_iff.mpr hl.ne_nil
    have := hle hs hl
    omega
  · left
    have hrule : best ∈ rules.map fun r => (r.1, r.2 cs) :=
      hmem.resolve_left fun h => hzero (by rw [h])
    obtain ⟨r, hr, rfl⟩ := List.mem_map.mp hrule
    obtain ⟨text, ⟨after, rfl⟩, hlength, hmatches⟩ := (measures_of_mem_rules r hr cs).1 hzero
    dsimp only at hle hzero
    rw [← hlength] at hle hzero ⊢
    exact ⟨r.1, text, after, rfl, if_neg hzero, longest_of_le hmatches fun _ _ => hle⟩

theorem lexeme_of_longest {k : Kind} {text after : List Char} (h : Longest k text after) :
    lexeme (text ++ after) = (k, text.length) := by
  rcases lexeme_spec (text ++ after) with ⟨l, s, rest, heq, hlexeme, hs⟩ | ⟨hunmatched, -⟩
  · have hle := h.2 l s (heq ▸ List.prefix_append s rest) hs.1
    have hge := hs.2 k text (heq ▸ List.prefix_append text after) h.1
    have hlength : s.length = text.length := by omega
    rw [hlexeme, hlength, hle.2 hlength]
  · exact absurd h.1 (hunmatched k text (List.prefix_append text after))

end DiceNotation.Token

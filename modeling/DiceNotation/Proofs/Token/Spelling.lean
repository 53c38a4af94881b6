import DiceNotation.Token.Scan
import Mathlib.Tactic.IntervalCases

/-! Texts and the tokens that they spell. What a token is to a parser is its kind and its text, and
not where it stands. A text is told apart into such pieces, one longest match after the other. -/

namespace DiceNotation.Token

/-- A token without its place. -/
abbrev Piece : Type :=
  Kind × List Char

def piece (t : Token) : Piece :=
  (t.kind, t.text)

section Pieces

variable {ts : List Token} {k : Kind} {text : List Char} {ps qs : List Piece}

theorem exists_of_map_piece_cons (h : ts.map piece = (k, text) :: ps) :
    ∃ t us, ts = t :: us ∧ t.kind = k ∧ t.text = text ∧ us.map piece = ps := by
  obtain ⟨t, us, rfl, ht, hus⟩ := List.map_eq_cons_iff.mp h
  exact ⟨t, us, rfl, congrArg Prod.fst ht, congrArg Prod.snd ht, hus⟩

theorem exists_of_map_piece_append (h : ts.map piece = ps ++ (k, text) :: qs) :
    ∃ us t vs, ts = us ++ t :: vs ∧ us.map piece = ps ∧ t.kind = k ∧ vs.map piece = qs := by
  obtain ⟨us, ws, rfl, hus, hws⟩ := List.map_eq_append_iff.mp h
  obtain ⟨t, vs, rfl, hk, -, hvs⟩ := exists_of_map_piece_cons hws
  exact ⟨us, t, vs, rfl, hus, hk, hvs⟩

end Pieces

/-- The pieces of a text, with blanks anywhere between them. -/
inductive Spells : List Char → List Piece → Prop
  | nil : Spells [] []
  | gap {c : Char} {cs : List Char} {ps : List Piece} (hc : isBlank c = true)
      (rest : Spells cs ps) : Spells (c :: cs) ps
  | cons {c : Char} {text cs : List Char} {kind : Kind} {ps : List Piece}
      (start : isBlank c = false) (longest : lexeme (c :: text ++ cs) = (kind, text.length + 1))
      (rest : Spells cs ps) : Spells (c :: text ++ cs) ((kind, c :: text) :: ps)

theorem Spells.blank {cs : List Char} {ps : List Piece} (rest : Spells cs ps) :
    Spells (' ' :: cs) ps :=
  rest.gap rfl

theorem Spells.single {c : Char} {cs : List Char} {k : Kind} {ps : List Piece}
    (start : isBlank c = false) (h : lexeme (c :: cs) = (k, 1)) (rest : Spells cs ps) :
    Spells (c :: cs) ((k, [c]) :: ps) :=
  @cons c [] cs k ps start h rest

theorem Spells.map_piece_scanFrom {cs : List Char} {ps : List Piece} (h : Spells cs ps)
    {fuel : Nat} (hfuel : cs.length ≤ fuel) (start : Nat) :
    (scanFrom fuel start cs).map piece = ps := by
  induction h generalizing fuel start with
  | nil => cases fuel <;> rfl
  | gap hc rest ih =>
    cases fuel with
    | zero => simp at hfuel
    | succ fuel =>
      rw [scanFrom, if_pos hc]
      exact ih (Nat.le_of_succ_le_succ hfuel) _
  | @cons c text cs kind ps hstart longest rest ih =>
    cases fuel with
    | zero => simp at hfuel
    | succ fuel =>
      rw [List.cons_append, List.length_cons, List.length_append] at hfuel
      have htake : (c :: text ++ cs).take (text.length + 1) = c :: text := List.take_left' rfl
      have hdrop : (c :: text ++ cs).drop (text.length + 1) = cs := List.drop_left' rfl
      have hrest (start : Nat) : (scanFrom fuel start cs).map piece = ps := ih (by omega) start
      rw [List.cons_append] at longest htake hdrop ⊢
      simp only [scanFrom, hstart, Bool.false_eq_true, if_false, longest, htake, hdrop,
        List.map_cons, piece, hrest]

/-- The pieces of a whole text. -/
theorem Spells.map_piece_scan {cs : List Char} {ps : List Piece} (h : Spells cs ps) :
    (scan cs).map piece = ps :=
  h.map_piece_scanFrom (Nat.le_refl _) 0

theorem foldl_longer_of_zero (best : Kind × Nat) {rs : List (Kind × Nat)} (h : ∀ r ∈ rs, r.2 = 0) :
    rs.foldl longer best = best := by
  induction rs with
  | nil => rfl
  | cons r rs ih =>
    obtain ⟨hr, hrs⟩ := List.forall_mem_cons.mp h
    rw [List.foldl_cons, longer, if_neg (by omega), ih hrs]

theorem isBlank_of_isDigit {c : Char} (h : c.isDigit = true) : isBlank c = false := by
  refine Bool.eq_false_iff.mpr fun hblank => ?_
  simp only [isBlank, Bool.or_eq_true, beq_iff_eq] at hblank
  rcases hblank with ((rfl | rfl) | rfl) | rfl <;> simp at h

/-- No spelling starts with a digit. -/
theorem fixedLength_of_digit {c : Char} (hc : c.isDigit = true) {s : Kind × String}
    (hs : s ∈ Kind.spellings) (cs : List Char) : fixedLength s.2.toList (c :: cs) = 0 := by
  have hall : Kind.spellings.all (fun s => s.2.toList.head?.any fun c => !c.isDigit) = true := by
    decide +kernel
  have hhead := List.all_eq_true.mp hall s hs
  cases hspelling : s.2.toList with
  | nil => simp [hspelling] at hhead
  | cons d ds =>
    have hd : d.isDigit = false := by simpa [hspelling] using hhead
    have hne : (d == c) = false := by
      rw [beq_eq_false_iff_ne]
      rintro rfl
      simp [hc] at hd
    simp [fixedLength, List.isPrefixOf, hne]

theorem lexeme_digits {digits cs : List Char} (hne : digits ≠ [])
    (hdigits : ∀ c ∈ digits, c.isDigit = true)
    (hcs : ∀ c ∈ cs.head?, c.isDigit = false ∧ c ≠ '.') :
    lexeme (digits ++ cs) = (.integer, digits.length) := by
  obtain ⟨d, ds, rfl⟩ := List.exists_cons_of_ne_nil hne
  have hd : d.isDigit = true := hdigits d List.mem_cons_self
  have hspellings : ((Kind.spellings.map fun s => (s.1, fixedLength s.2.toList)).map fun r =>
      (r.1, r.2 (d :: ds ++ cs))).foldl longer (.error, 0) = (.error, 0) := by
    refine foldl_longer_of_zero _ ?_
    simp only [List.mem_map, forall_exists_index, and_imp, forall_apply_eq_imp_iff₂]
    exact fun s hs => fixedLength_of_digit hd hs (ds ++ cs)
  have htake : cs.takeWhile Char.isDigit = [] := by
    cases cs with
    | nil => rfl
    | cons c cs => exact List.takeWhile_cons_of_neg (by simp [(hcs c rfl).1])
  have hdrop : cs.dropWhile Char.isDigit = cs := by
    cases cs with
    | nil => rfl
    | cons c cs => exact List.dropWhile_cons_of_neg (by simp [(hcs c rfl).1])
  have hrun : digitRun (d :: ds ++ cs) = ds.length + 1 := by
    rw [digitRun, List.takeWhile_append_of_pos hdigits, htake, List.append_nil, List.length_cons]
  have hdecimal : decimalLength (d :: ds ++ cs) = 0 := by
    rw [decimalLength, List.dropWhile_append_of_pos hdigits, hdrop]
    split
    · exact absurd rfl (hcs '.' rfl).2
    · rfl
  have hreplacement : replacementLength (d :: ds ++ cs) = 0 := by
    unfold replacementLength
    split
    · rename_i heq
      obtain rfl := (List.cons.inj heq).1
      simp at hd
    · rfl
  have hlabel : labelLength (d :: ds ++ cs) = 0 := by
    unfold labelLength
    split
    · rename_i heq
      obtain rfl := (List.cons.inj heq).1
      simp at hd
    · rfl
  rw [lexeme, rules, List.map_append, List.foldl_append, hspellings]
  simp only [List.map_cons, List.map_nil, List.foldl_cons, List.foldl_nil, hrun, hdecimal,
    hreplacement, hlabel, longer]
  simp

theorem lexeme_dice {c : Char} (hc : c.isDigit = true) (cs : List Char) :
    lexeme ('d' :: c :: cs) = (.dice, 1) := by
  have hrange : 48 ≤ c.toNat ∧ c.toNat ≤ 57 := by
    simpa [Char.isDigit, UInt32.le_iff_toNat_le] using hc
  obtain ⟨hlow, hhigh⟩ := hrange
  rw [← Char.ofNat_toNat c]
  generalize c.toNat = n at hlow hhigh
  interval_cases n <;> rfl

end DiceNotation.Token

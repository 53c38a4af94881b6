import DiceNotation.Proofs.Grammar.Completeness
import DiceNotation.Proofs.Grammar.Decided

/-! The texts that are formulas. A text is read as a formula if and only if the grammar derives the
formula from the tokens of the text, none of which is an error or an integer beyond 64 bits then. -/

namespace DiceNotation

open DiceNotation.Parser
open Token (Kind Piece Genuine)

namespace Parser

/-- Neither an error nor an integer that is out of range. -/
def Fits (p : Piece) : Prop :=
  p.1 ≠ .error ∧ (p.1 = .integer → (integer? p.2).isSome)

section Fits

variable {k : Kind} {text : List Char}

theorem fits_of_ne (herror : k ≠ .error) (hinteger : k ≠ .integer) : Fits (k, text) :=
  ⟨herror, fun h => absurd h hinteger⟩

theorem fits_of_relation? {r : Relation} (h : relation? k = some r) : Fits (k, text) := by
  refine fits_of_ne ?_ ?_ <;> rintro rfl <;> cases h

theorem fits_of_slot? {host : Host} {slot : Slot} (h : slot? host k = some slot) :
    Fits (k, text) := by
  refine fits_of_ne ?_ ?_ <;> rintro rfl <;> cases host <;> cases h

theorem fits_of_function? {f : NumericFunction} (h : function? k = some f) : Fits (k, text) := by
  refine fits_of_ne ?_ ?_ <;> rintro rfl <;> cases h

theorem fits_of_multiplier? {op : Operator} (h : multiplier? k = some op) : Fits (k, text) := by
  refine fits_of_ne ?_ ?_ <;> rintro rfl <;> cases h

theorem fits_of_sign? {op : Sign} (h : sign? k = some op) : Fits (k, text) := by
  refine fits_of_ne ?_ ?_ <;> rintro rfl <;> cases h

theorem fits_cons {ps : List Piece} (h : Fits (k, text)) (hps : ∀ p ∈ ps, Fits p) :
    ∀ p ∈ (k, text) :: ps, Fits p :=
  List.forall_mem_cons.mpr ⟨h, hps⟩

theorem fits_append {ps qs : List Piece} (hps : ∀ p ∈ ps, Fits p) (hqs : ∀ p ∈ qs, Fits p) :
    ∀ p ∈ ps ++ qs, Fits p :=
  List.forall_mem_append.mpr ⟨hps, hqs⟩

theorem fits_singleton (h : Fits (k, text)) : ∀ p ∈ [(k, text)], Fits p :=
  List.forall_mem_singleton.mpr h

end Fits

end Parser

theorem Grammar.fits {c : Construct} {ps : List Piece} (h : Grammar c ps) : ∀ p ∈ ps, Fits p := by
  have hplain {k : Kind} {text : List Char} (h : (k != .error && k != .integer) = true) :
      Fits (k, text) := by
    simp only [Bool.and_eq_true, bne_iff_ne] at h
    exact fits_of_ne h.1 h.2
  induction h with
  | parens h ih =>
    exact fits_append (fits_cons (hplain rfl) ih) (fits_singleton (hplain rfl))
  | integer h => exact fits_singleton ⟨nofun, fun _ => by simp [h]⟩
  | decimal | percent | fate => exact fits_singleton (hplain rfl)
  | default | unconditional | unfiltered | nothing | alone => exact List.forall_mem_nil _
  | enclosed h ih | count h ih | unsignedValue h ih | equality h ih | compared h ih | valued h ih
  | conditional h ih | filtered h ih | success h ih | sides h ih | plain h ih | unsigned h ih
  | factor h ih | summand h ih => exact ih
  | negate h ih | replacement h ih | minus h ih | plus h ih => exact fits_cons (hplain rfl) ih
  | comparison hk h ih => exact fits_cons (fits_of_relation? hk) ih
  | counted hk h ih | optional hk h ih | required hk h ih => exact fits_cons (fits_of_slot? hk) ih
  | sorting hk => exact fits_singleton (fits_of_slot? hk)
  | matching hk hcount hfilter ihcount ihfilter =>
    exact fits_append (fits_cons (fits_of_slot? hk) ihcount) ihfilter
  | more hx h hxs ih ihxs => exact fits_append ih ihxs
  | member h hfs ih ihfs => exact fits_append (fits_cons (hplain rfl) ih) ihfs
  | dice hcount hfaces hxs ihcount ihfaces ihxs =>
    exact fits_append (fits_append ihcount (fits_cons (hplain rfl) ihfaces)) ihxs
  | group h hfs hxs ih ihfs ihxs =>
    exact fits_append (fits_append (fits_cons (hplain rfl) ih) ihfs) (fits_cons (hplain rfl) ihxs)
  | inline h ih =>
    exact fits_append (fits_cons (hplain rfl) ih) (fits_singleton (hplain rfl))
  | function hk h ih => exact fits_cons (fits_of_function? hk) ih
  | labels h texts ih =>
    refine fits_append ih fun p hp => ?_
    obtain ⟨text, -, rfl⟩ := List.mem_map.mp hp
    exact hplain rfl
  | power hbase h ihbase ih => exact fits_append ihbase (fits_cons (hplain rfl) ih)
  | times hk hleft hright ihleft ihright =>
    exact fits_append ihleft (fits_cons (fits_of_multiplier? hk) ihright)
  | added hk hleft hright ihleft ihright =>
    exact fits_append ihleft (fits_cons (fits_of_sign? hk) ihright)

namespace Parser

theorem Whole.fits {f : Formula} {ps : List Piece} (h : Whole f ps) : ∀ p ∈ ps, Fits p := by
  obtain ⟨head, tail, h, -⟩ := h
  exact h.fits

/-- The formula that has been read, if nothing comes after it. -/
def ending (f : Formula) : Parser Formula := do
  match ← get with
  | [] => pure f
  | t :: _ => fail (.trailing t.kind) (some t)

theorem whole_eq (ts : List Token) : whole ts = (formula (ts.length + 1) >>= ending) ts :=
  bind_run remaining_run _

theorem decides_whole (xs : List Piece) : Decides (fun _ _ => whole) Whole xs := by
  have hending : Decides (fun n m => nested n m >>= ending) Whole xs := by
    refine (decides_formula xs).bind (f := fun f _ _ => ending f) (fun f ps qs _ hf _ => ?_)
      fun f ps hf => ⟨[], f, genuine_nil, by rwa [List.append_nil]⟩
    cases qs with
    | nil =>
      refine .done (by rwa [List.append_nil]) fun n m ts hts => ?_
      obtain rfl : ts = [] := by simpa using hts
      rfl
    | cons q qs =>
      refine .fail (.trailing q.1) rfl ⟨[], f, genuine_nil, by simpa using hf⟩ nofun
        fun n m ts hts => ?_
      obtain ⟨t, us, rfl, ht, -⟩ := exists_of_head? hts
      rw [← ht]
      rfl
  exact hending.congr fun n m ts _ _ _ => ⟨ts.length, ts.length, le_rfl, le_rfl, whole_eq ts⟩

theorem whole_run_of_settles {us rest : List Token} {v : Except Failure.Cause Formula}
    (h : Settles (fun _ _ => whole) (us.map Token.piece) (rest.head?.map Token.piece) v) :
    whole (us ++ rest) = verdict v rest :=
  h _ _ us rest rfl rfl le_rfl le_rfl

theorem whole_of_run {ts rest : List Token} {f : Formula} (h : whole ts = .ok (f, rest)) :
    Whole f (ts.map Token.piece) := by
  rw [whole_eq] at h
  obtain ⟨g, us, hread, hend⟩ := exists_of_bind_ok h
  obtain ⟨rfl, rfl⟩ : us = [] ∧ g = f := by
    cases us with
    | nil => exact ⟨rfl, by cases hend; rfl⟩
    | cons u us => cases hend
  cases decides_formula (ts.map Token.piece) with
  | @reads a ps qs hxs hL hsettles =>
    obtain ⟨vs, ws, rfl, hvs, hws⟩ := List.map_eq_append_iff.mp hxs
    have hrun := hsettles _ _ vs ws hvs (by rw [← hws, List.head?_map]) le_rfl le_rfl
    rw [nested, hread] at hrun
    cases hrun
    rwa [List.append_nil, hvs]
  | stops hxs hcause hgo hL hsettles =>
    obtain ⟨vs, ws, rfl, hvs, hws⟩ := List.map_eq_append_iff.mp hxs
    have hrun := hsettles _ _ vs ws hvs (by rw [← hws, List.head?_map]) le_rfl le_rfl
    rw [nested, hread] at hrun
    cases hrun

end Parser

/-- The tokens of a text, without their places. -/
def pieces (text : String) : List Piece :=
  (Token.scan text.toList).map Token.piece

/-- The text is a formula. -/
def Parses (text : String) : Prop :=
  ∃ f, Formula.parse text = .ok f

section Texts

variable {text : String} {f : Formula}

theorem parse_eq : Formula.parse text = match whole (Token.scan text.toList) with
    | .ok (f, _) => .ok f
    | .error (cause, token) => .error (.locate (Text.byteLength text.toList) cause token) := by
  have hrun : whole.run' (Token.scan text.toList) = Prod.fst <$> whole (Token.scan text.toList) := rfl
  rw [Formula.parse, hrun]
  cases whole (Token.scan text.toList) <;> rfl

theorem parse_eq_ok_iff_run :
    Formula.parse text = .ok f ↔ ∃ rest, whole (Token.scan text.toList) = .ok (f, rest) := by
  rw [parse_eq]
  cases whole (Token.scan text.toList) with
  | ok result =>
    constructor
    · intro h
      cases h
      exact ⟨_, rfl⟩
    · rintro ⟨rest, h⟩
      cases h
      rfl
  | error failure => exact ⟨nofun, nofun⟩

/-- What a text is read as the grammar derives from its tokens. -/
theorem whole_of_parse (h : Formula.parse text = .ok f) :
    Whole f (pieces text) := by
  obtain ⟨rest, hrun⟩ := parse_eq_ok_iff_run.mp h
  exact whole_of_run hrun

/-- The tokens of a formula are what the rules of their kinds match. -/
theorem genuine_pieces (h : Formula.parse text = .ok f) : Genuine (pieces text) := by
  have htiles : Token.Tiles 0 text.toList (Token.scan text.toList) :=
    Token.tiles_scanFrom le_rfl 0
  intro p hp
  have hfits := (whole_of_parse h).fits p hp
  obtain ⟨t, ht, rfl⟩ := List.mem_map.mp hp
  obtain ⟨before, after, -, -, -, hlexical⟩ := htiles.exists_append t ht
  exact (hlexical.longest hfits.1).1

theorem Parser.Whole.parse {ps : List Piece} (h : Whole f ps) (htext : Token.Spells text.toList ps) :
    Formula.parse text = .ok f := by
  obtain ⟨head, tail, h, rfl⟩ := h
  exact h.parse htext

end Texts

end DiceNotation

import DiceNotation.Proofs.Grammar.Language

/-! Where a text is refused. The failure is about the first token that can follow the tokens before it
in no formula: those before it go on to some formula, with a token of each kind that was due, and
with the token itself they go on to none. -/

namespace DiceNotation

open DiceNotation.Parser
open Token (Kind Piece Genuine)
open Text (byteLength)

/-- An integer that 64 bits do not hold. -/
def Token.Overflows (t : Token) : Prop :=
  t.kind = .integer ∧ Int64.maxValue.toInt < Decimal.natOfDigits t.text

theorem Parser.integer?_eq_none_iff {digits : List Char} :
    integer? digits = none ↔ Int64.maxValue.toInt < Decimal.natOfDigits digits := by
  have hmax : Int64.maxValue.toInt = 0x7fffffffffffffff := by decide
  rw [integer?, hmax]
  split <;> simp <;> omega

/-- The failure of a text that is about the first of the tokens `us`, or about the end of the text if
there are none. -/
structure Failure.IsAbout (e : Failure) (text : String) (ts us : List Token) : Prop where
  tokens : Token.scan text.toList = ts ++ us
  found : e.cause.Blames (us.head?.map Token.piece)
  token : ∀ t ∈ us.head?, e.start = t.start ∧ e.stop = t.stop ∧ e.slice = String.ofList t.text
  finish : us = [] → e.start = byteLength text.toList ∧ e.stop = byteLength text.toList ∧ e.slice = ""
  /-- Up to the end of the tokens `ts` the text goes on to a formula. -/
  resumes : ∃ before after rest, text.toList = before ++ after ∧
    byteLength before = (ts.getLast?.map Token.stop).getD 0 ∧
    Parses (String.ofList before ++ " " ++ rest)
  refused : us ≠ [] → ∀ other,
    (pieces other).take (ts.length + 1) = (pieces text).take (ts.length + 1) → ¬Parses other
  expected : ∀ k ∈ e.cause.expected, ∃ other, Parses other ∧
    (pieces other).take ts.length = ts.map Token.piece ∧
    (pieces other)[ts.length]?.map Prod.fst = some k
  outOfRange : e.cause = .outOfRange → ∃ t ∈ us.head?, t.Overflows

section Texts

variable {text : String} {ts us : List Token}

/-- The text cut off here, with other tokens behind a blank. -/
def resumed (before : List Char) (ws : List Piece) : String :=
  String.ofList before ++ " " ++ String.ofList (Token.spacedText (ws.map Prod.snd))

/-- A text goes on from some of its tokens with what the grammar has after them. -/
theorem exists_cut (hscan : Token.scan text.toList = ts ++ us) (hts : ∀ t ∈ ts, t.kind ≠ .error) :
    ∃ before after, text.toList = before ++ after ∧
      byteLength before = (ts.getLast?.map Token.stop).getD 0 ∧
      ∀ ws f, Genuine ws → Whole f (ts.map Token.piece ++ ws) →
        Formula.parse (resumed before ws) = .ok f ∧
        pieces (resumed before ws) = ts.map Token.piece ++ ws := by
  have htiles : Token.Tiles 0 text.toList (Token.scan text.toList) :=
    Token.tiles_scanFrom le_rfl 0
  obtain ⟨before, after, htext, hempty, hlast, hspells⟩ := htiles.cut hscan hts
  refine ⟨before, after, htext, ?_, fun ws f hws hf => ?_⟩
  · cases hgetLast : ts.getLast? with
    | none => simp [hempty (List.getLast?_eq_none_iff.mp hgetLast), byteLength]
    | some t => simpa using hlast t hgetLast
  · have hrest : Token.Spells (resumed before ws).toList (ts.map Token.piece ++ ws) := by
      simpa [resumed] using hspells _ _ ((Token.spaced_spacedText _).spells hws)
    exact ⟨hf.parse hrest, hrest.map_piece_scan⟩

theorem fits_of_extends (h : Extends Whole (ts.map Token.piece)) : ∀ t ∈ ts, t.kind ≠ .error := by
  obtain ⟨ws, f, -, hf⟩ := h
  exact fun t ht => (hf.fits t.piece (List.mem_append_left _ (List.mem_map_of_mem ht))).1

theorem not_parses_of_overflows {t : Token} (ht : t ∈ Token.scan text.toList) (h : t.Overflows) :
    ¬Parses text := by
  rintro ⟨f, hf⟩
  have hfits := (whole_of_parse hf).fits t.piece (List.mem_map_of_mem ht)
  have hsome := hfits.2 h.1
  rw [Token.piece, integer?_eq_none_iff.mpr h.2] at hsome
  cases hsome

theorem parse_eq_error_iff_run {e : Failure} :
    Formula.parse text = .error e ↔ ∃ cause token,
      whole (Token.scan text.toList) = .error (cause, token) ∧
      e = .locate (byteLength text.toList) cause token := by
  rw [parse_eq]
  cases whole (Token.scan text.toList) with
  | ok result =>
    constructor
    · nofun
    · rintro ⟨cause, token, h, -⟩
      cases h
  | error failure =>
    constructor
    · intro h
      cases h
      exact ⟨_, _, rfl, rfl⟩
    · rintro ⟨cause, token, h, rfl⟩
      cases h
      rfl

/-- No text is a formula that agrees with a failing one up to the token where it fails. -/
theorem not_parses_of_settles {cause : Failure.Cause} {u : Token} {other : String}
    (h : Settles (fun _ _ => whole) (ts.map Token.piece) (some u.piece) (.error cause))
    (hother : (pieces other).take (ts.length + 1) = ts.map Token.piece ++ [u.piece]) :
    ¬Parses other := by
  rintro ⟨f, hf⟩
  have hpieces : (Token.scan other.toList).map Token.piece =
      ts.map Token.piece ++ u.piece :: (pieces other).drop (ts.length + 1) := by
    rw [← List.singleton_append, ← List.append_assoc, ← hother, List.take_append_drop]
    rfl
  obtain ⟨vs, ws, hscan, hvs, hws⟩ := List.map_eq_append_iff.mp hpieces
  have hhead : ws.head?.map Token.piece = some u.piece := by rw [← List.head?_map, hws]; rfl
  rw [← hvs, ← hhead] at h
  have hrun := whole_run_of_settles h
  obtain ⟨rest, hread⟩ := parse_eq_ok_iff_run.mp hf
  rw [← hscan, hread] at hrun
  cases hrun

/-- A failure is about the first token that cannot be, and an integer beyond 64 bits can be
nowhere. -/
theorem parse_error_isAbout {text : String} {e : Failure} (h : Formula.parse text = .error e) :
    (∃ ts us, e.IsAbout text ts us) ∧
      ∀ other, (∃ t ∈ Token.scan other.toList, t.Overflows) → ¬Parses other := by
  refine ⟨?_, fun other ⟨t, ht, hoverflows⟩ => not_parses_of_overflows ht hoverflows⟩
  obtain ⟨cause, token, hrun, rfl⟩ := parse_eq_error_iff_run.mp h
  cases decides_whole (pieces text) with
  | reads hxs hL hsettles =>
    obtain ⟨ts, us, hscan, rfl, rfl⟩ := List.map_eq_append_iff.mp hxs
    rw [List.head?_map] at hsettles
    have hread := whole_run_of_settles hsettles
    rw [← hscan, hrun] at hread
    cases hread
  | stops hxs hcause hgo hL hsettles =>
    obtain ⟨ts, us, hscan, rfl, rfl⟩ := List.map_eq_append_iff.mp hxs
    rw [List.head?_map] at hcause hsettles
    have hstop := whole_run_of_settles hsettles
    rw [← hscan, hrun] at hstop
    cases hstop
    obtain ⟨before, after, htext, hbefore, hcut⟩ := exists_cut hscan (fits_of_extends hgo)
    have hlocate : (Failure.locate (byteLength text.toList) cause us.head?).cause = cause := by
      cases us <;> rfl
    refine ⟨ts, us, hscan, hlocate.symm ▸ hcause, fun t ht => ?_, ?_, ?_, fun hne other hother => ?_,
      fun k hk => ?_, fun hrange => ?_⟩
    · rw [ht]
      exact ⟨rfl, rfl, rfl⟩
    · rintro rfl
      exact ⟨rfl, rfl, rfl⟩
    · obtain ⟨ws, f, hws, hf⟩ := hgo
      exact ⟨before, after, _, htext, hbefore, f, (hcut ws f hws hf).1⟩
    · obtain ⟨u, us, rfl⟩ := List.exists_cons_of_ne_nil hne
      refine not_parses_of_settles hsettles (hother.trans ?_)
      simp [pieces, hscan, List.take_append, List.take_of_length_le]
    · rw [hlocate] at hk
      obtain ⟨label, ws, f, hws, hf⟩ := hL k hk
      obtain ⟨hparse, hpieces⟩ := hcut _ f hws hf
      refine ⟨_, ⟨f, hparse⟩, ?_, ?_⟩ <;> rw [hpieces] <;> simp
    · rw [hlocate] at hrange
      subst hrange
      obtain ⟨digits, hpiece, hdigits⟩ := hcause
      obtain ⟨u, hu, hu'⟩ := Option.map_eq_some_iff.mp hpiece
      refine ⟨u, hu, congrArg Prod.fst hu', integer?_eq_none_iff.mp ?_⟩
      rwa [show u.text = digits from congrArg Prod.snd hu']

/-- A group that is closed by the wrong bracket. -/
theorem parse_error_isAbout_wrong_bracket :
    Formula.parse "\x7b2d6, 3 ) kh" =
        .error ⟨.unexpected (some .rightParen) [.rightBrace], 8, 9, ")"⟩ ∧
      (∃ ts us, Failure.IsAbout ⟨.unexpected (some .rightParen) [.rightBrace], 8, 9, ")"⟩
        "\x7b2d6, 3 ) kh" ts us) ∧
      ∀ other, (∃ t ∈ Token.scan other.toList, t.Overflows) → ¬Parses other := by
  have hfailure : (Formula.parse "\x7b2d6, 3 ) kh").map (fun _ => ()) =
      .error ⟨.unexpected (some .rightParen) [.rightBrace], 8, 9, ")"⟩ := by decide +kernel
  cases h : Formula.parse "\x7b2d6, 3 ) kh" with
  | ok f =>
    rw [h] at hfailure
    cases hfailure
  | error e =>
    rw [h] at hfailure
    cases hfailure
    exact ⟨rfl, parse_error_isAbout h⟩

end Texts

end DiceNotation

import DiceNotation.Proofs.Grammar.Language

/-! Texts with more blanks between their tokens. A blank that is put in at the bound of a token cuts
off nothing that the token needs, and makes no token longer; so the tokens stay what they are, and
what the text is read as. -/

namespace DiceNotation

open Token (Piece)

namespace Token

/-- The second text is the first one, from a given byte on, with blanks put in where they stand inside
of none of the tokens. -/
inductive Widened (ts : List Token) : Nat → List Char → List Char → Prop
  | nil (start : Nat) : Widened ts start [] []
  | keep {start : Nat} (c : Char) {cs ds : List Char} (rest : Widened ts (start + c.utf8Size) cs ds) :
      Widened ts start (c :: cs) (c :: ds)
  | insert {start : Nat} {c : Char} {cs ds : List Char} (hc : isBlank c = true)
      (bound : ∀ t ∈ ts, start ≤ t.start ∨ t.stop ≤ start) (rest : Widened ts start cs ds) :
      Widened ts start cs (c :: ds)

section Widened

variable {all ts : List Token} {start : Nat} {cs ds after : List Char}

/-- Up to the first blank that is put in, the texts are one. -/
theorem Widened.eq_or_cut (h : Widened all start cs ds) :
    ds = cs ∨ ∃ before after c rest, cs = before ++ after ∧ ds = before ++ c :: rest ∧
      isBlank c = true := by
  induction h with
  | nil start => exact .inl rfl
  | keep c hrest ih =>
    rcases ih with rfl | ⟨before, after, d, rest, rfl, rfl, hd⟩
    · exact .inl rfl
    · exact .inr ⟨c :: before, after, d, rest, rfl, rfl, hd⟩
  | @insert start c cs ds hc bound rest ih => exact .inr ⟨[], cs, c, ds, rfl, rfl, hc⟩

theorem Widened.through {t : Token} (ht : t ∈ all) {text : List Char} (h : Widened all start cs ds)
    (hcs : cs = text ++ after) (hstart : t.start < start)
    (hstop : start + Text.byteLength text = t.stop) :
    ∃ rest, ds = text ++ rest ∧ Widened all t.stop after rest := by
  induction h generalizing text with
  | nil start =>
    obtain ⟨rfl, rfl⟩ := List.append_eq_nil_iff.mp hcs.symm
    exact ⟨[], rfl, .nil _⟩
  | @keep start c cs ds hrest ih =>
    cases text with
    | nil =>
      obtain rfl : start = t.stop := hstop
      rw [List.nil_append] at hcs
      exact ⟨c :: ds, rfl, hcs ▸ hrest.keep c⟩
    | cons d text =>
      obtain ⟨rfl, rfl⟩ := List.cons.inj hcs
      rw [Text.byteLength, ← Nat.add_assoc] at hstop
      obtain ⟨ds, rfl, hafter⟩ := ih rfl (by omega) hstop
      exact ⟨ds, rfl, hafter⟩
  | @insert start c cs ds hc bound hrest ih =>
    cases text with
    | nil =>
      obtain rfl : start = t.stop := hstop
      rw [List.nil_append] at hcs
      exact ⟨c :: ds, rfl, hcs ▸ hrest.insert hc bound⟩
    | cons d text =>
      have hd := d.utf8Size_pos
      rw [Text.byteLength] at hstop
      have := bound t ht
      omega

/-- Before anything else come the blanks that are put in there. -/
theorem Widened.spells {ps : List Piece} (h : Widened all start cs ds)
    (hnil : cs = [] → Spells [] ps)
    (hcons : ∀ c after rest, cs = c :: after → Widened all (start + c.utf8Size) after rest →
      Spells (c :: rest) ps) : Spells ds ps := by
  induction h with
  | nil start => exact hnil rfl
  | @keep start c cs ds rest ih => exact hcons c cs ds rfl rest
  | insert hc bound rest ih => exact (ih hnil hcons).gap hc

theorem Tiles.spells_of_widened (h : Tiles start cs ts) (hall : ∀ t ∈ ts, t ∈ all)
    (hts : ∀ t ∈ ts, t.kind ≠ .error) (hds : Widened all start cs ds) :
    Spells ds (ts.map piece) := by
  induction h generalizing ds with
  | nil start => exact hds.spells (fun _ => .nil) nofun
  | @blank start c cs ts hc rest ih =>
    refine hds.spells nofun fun d after ds hd hrest => ?_
    obtain ⟨rfl, rfl⟩ := List.cons.inj hd
    exact (ih hall hts hrest).gap hc
  | @token t after ts hlexical stop hlater ih =>
    obtain ⟨hmem, hall⟩ := List.forall_mem_cons.mp hall
    obtain ⟨hk, hts⟩ := List.forall_mem_cons.mp hts
    obtain ⟨c, text, htext, -⟩ := hlexical.start
    refine hds.spells (by simp [htext]) fun d tail ds hd hrest => ?_
    rw [htext] at hd
    obtain ⟨rfl, rfl⟩ := List.cons.inj hd
    have hc := c.utf8Size_pos
    have hstop : t.start + c.utf8Size + Text.byteLength text = t.stop := by
      rw [stop, htext, Text.byteLength, Nat.add_assoc]
    obtain ⟨ds, rfl, hafter⟩ := hrest.through hmem rfl (by omega) hstop
    have hlongest : Longest t.kind t.text ds := by
      have hbefore := hlexical.longest hk
      rcases hafter.eq_or_cut with rfl | ⟨before, after, b, rest, rfl, rfl, hb⟩
      · exact hbefore
      · exact hbefore.cut hb rest
    have hspells : Spells (t.text ++ ds) ((t :: ts).map piece) :=
      hlongest.spells (ih hall hts hafter)
    rwa [htext] at hspells

end Widened

end Token

section Texts

variable {text wider : String}

theorem spells_of_widened (hts : ∀ t ∈ Token.scan text.toList, t.kind ≠ .error)
    (h : Token.Widened (Token.scan text.toList) 0 text.toList wider.toList) :
    Token.Spells wider.toList (pieces text) := by
  have htiles : Token.Tiles 0 text.toList (Token.scan text.toList) :=
    Token.tiles_scanFrom le_rfl 0
  exact htiles.spells_of_widened (fun _ ht => ht) hts h

theorem kind_ne_error_of_parse {f : Formula} (h : Formula.parse text = .ok f) :
    ∀ t ∈ Token.scan text.toList, t.kind ≠ .error :=
  fun t ht => ((whole_of_parse h).fits t.piece (List.mem_map_of_mem ht)).1

/-- Blanks between tokens never matter. Wherever more of them are put in at the bounds of the tokens of
a text, it is read as the formula that it was; and if there are no errors among its tokens, formula
or not, their kinds and their texts stay. -/
theorem parse_widened
    (h : Token.Widened (Token.scan text.toList) 0 text.toList wider.toList) :
    (∀ f, Formula.parse text = .ok f → Formula.parse wider = .ok f) ∧
      ((∀ t ∈ Token.scan text.toList, t.kind ≠ .error) → pieces wider = pieces text) := by
  refine ⟨fun f hf => ?_, fun hts => (spells_of_widened hts h).map_piece_scan⟩
  exact (whole_of_parse hf).parse (spells_of_widened (kind_ne_error_of_parse hf) h)

/-- A labeled die with blanks at every bound but the first. The blank in the label is its own. -/
theorem parse_widened_label :
    Token.Widened (Token.scan "d%[a b]".toList) 0 "d%[a b]".toList "d %\t\r[a b]\n".toList ∧
      (∃ f, Formula.parse "d%[a b]" = .ok f ∧ Formula.parse "d %\t\r[a b]\n" = .ok f) ∧
      (∀ t ∈ Token.scan "d%[a b]".toList, t.kind ≠ .error) ∧
      pieces "d %\t\r[a b]\n" = pieces "d%[a b]" := by
  have hwider : Token.Widened (Token.scan "d%[a b]".toList) 0 "d%[a b]".toList
      "d %\t\r[a b]\n".toList :=
    .keep 'd' (.insert rfl (by decide +kernel) (.keep '%' (.insert rfl (by decide +kernel)
      (.insert rfl (by decide +kernel) (.keep '[' (.keep 'a' (.keep ' ' (.keep 'b' (.keep ']'
        (.insert rfl (by decide +kernel) (.nil _)))))))))))
  have hkinds : ∀ t ∈ Token.scan "d%[a b]".toList, t.kind ≠ .error := by decide +kernel
  obtain ⟨f, hf⟩ : ∃ f, Formula.parse "d%[a b]" = .ok f := by
    have hok : (Formula.parse "d%[a b]").toBool = true := by decide +kernel
    cases h : Formula.parse "d%[a b]" with
    | ok f => exact ⟨f, rfl⟩
    | error e =>
      rw [h] at hok
      cases hok
  exact ⟨hwider, ⟨f, hf, (parse_widened hwider).1 f hf⟩, hkinds, (parse_widened hwider).2 hkinds⟩

end Texts

end DiceNotation

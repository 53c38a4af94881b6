import DiceNotation.Proofs.Grammar.Notation

/-! The parsers read all that the grammar derives, each construct before anything that closes it. -/

namespace DiceNotation

open DiceNotation.Parser
open Token (Kind Piece)

/-- The pieces start with one whose kind has the property. -/
def StartsWith (P : Kind → Prop) (ps : List Piece) : Prop :=
  ∃ k text qs, ps = (k, text) :: qs ∧ P k

theorem StartsWith.mono {P Q : Kind → Prop} {ps : List Piece} (h : StartsWith P ps)
    (hPQ : ∀ k, P k → Q k) : StartsWith Q ps := by
  obtain ⟨k, text, qs, rfl, hk⟩ := h
  exact ⟨k, text, qs, rfl, hPQ k hk⟩

theorem StartsWith.append {P : Kind → Prop} {ps : List Piece} (h : StartsWith P ps)
    (qs : List Piece) : StartsWith P (ps ++ qs) := by
  obtain ⟨k, text, rs, rfl, hk⟩ := h
  exact ⟨k, text, rs ++ qs, rfl, hk⟩

theorem StartsWith.length_pos {P : Kind → Prop} {ps : List Piece} (h : StartsWith P ps) :
    0 < ps.length := by
  obtain ⟨k, text, qs, rfl, -⟩ := h
  exact Nat.succ_pos _

theorem StartsWith.exists_cons {P : Kind → Prop} {ps : List Piece} (h : StartsWith P ps)
    {ts : List Token} (hts : ts.map Token.piece = ps) : ∃ t us, ts = t :: us ∧ P t.kind := by
  obtain ⟨k, text, qs, rfl, hk⟩ := h
  obtain ⟨t, us, rfl, rfl, -, -⟩ := Token.exists_of_map_piece_cons hts
  exact ⟨t, us, rfl, hk⟩

namespace Parser

variable {inner : Parser Formula} {ps qs : List Piece} {f : Formula} {k : Kind}
  {text l r : List Char}

theorem reads_parenthesized (h : Reads inner 0 ps f) :
    Reads (parenthesized inner) 8 ((.leftParen, l) :: ps ++ [(.rightParen, r)]) f := by
  intro ts rest hts _
  obtain ⟨_, u, vs, rfl, hopen, hku, hvs⟩ := Token.exists_of_map_piece_append hts
  obtain ⟨t, us, rfl, hk, -, hus⟩ := Token.exists_of_map_piece_cons hopen
  obtain rfl := List.map_eq_nil_iff.mp hvs
  simp only [List.cons_append, List.nil_append, List.append_assoc]
  rw [parenthesized, bind_run (take_run hk), bind_run (h us (u :: rest) hus (closed_cons hku rfl)),
    bind_run (take_run hku)]
  rfl

theorem reads_integer {i : Int64} (h : integer? text = some i) :
    Reads (value inner) 8 [(.integer, text)] (.int i) := by
  intro ts rest hts _
  obtain ⟨t, us, rfl, hk, rfl, hus⟩ := Token.exists_of_map_piece_cons hts
  obtain rfl := List.map_eq_nil_iff.mp hus
  rw [List.singleton_append, value, bind_run (peek_cons hk)]
  exact literal_run hk h

theorem reads_decimal :
    Reads (value inner) 8 [(.decimal, text)] (.number (.float (decimal text))) := by
  intro ts rest hts _
  obtain ⟨t, us, rfl, hk, rfl, hus⟩ := Token.exists_of_map_piece_cons hts
  obtain rfl := List.map_eq_nil_iff.mp hus
  rw [List.singleton_append, value, bind_run (peek_cons hk)]
  exact literal_run_decimal hk

theorem reads_enclosed (hps : StartsWith (· = .leftParen) ps)
    (h : Reads (parenthesized inner) 8 ps f) : Reads (value inner) 8 ps f := by
  intro ts rest hts hrest
  have hparens := h ts rest hts hrest
  obtain ⟨t, us, rfl, hk⟩ := hps.exists_cons hts
  rw [List.cons_append] at hparens ⊢
  rw [value, bind_run (peek_cons hk), if_pos rfl, hparens]

/-- A count that may be left out. -/
theorem reads_count {default : Formula}
    (h : ps = [] ∧ f = default ∨ StartsWith (startsValue · = true) ps ∧ Reads (value inner) 8 ps f) :
    Reads ((·.getD default) <$> value? inner) 7 ps f := by
  intro ts rest hts hrest
  rcases h with ⟨rfl, rfl⟩ | ⟨hps, h⟩
  · obtain rfl := List.map_eq_nil_iff.mp hts
    exact map_run (value?_run_none (hrest.of_head fun _ => startsValue_of_closes)) _
  · have hvalue := h ts rest hts (closed_eight rest)
    obtain ⟨t, us, rfl, hk⟩ := hps.exists_cons hts
    rw [List.cons_append] at hvalue ⊢
    rw [map_congr_run (value?_run_some hk), Functor.map_map, map_run hvalue]
    rfl

theorem reads_unsignedValue {n : Nat} (hps : StartsWith (startsValue · = true) ps)
    (h : Reads (value inner) 8 ps f) : Reads (signedValue inner (n + 1)) 8 ps f := by
  intro ts rest hts hrest
  have hvalue := h ts rest hts hrest
  obtain ⟨t, us, rfl, hk⟩ := hps.exists_cons hts
  rw [List.cons_append] at hvalue ⊢
  rw [signedValue_run_value hk, hvalue]

theorem reads_negate {n : Nat} (h : Reads (signedValue inner n) 8 ps f) :
    Reads (signedValue inner (n + 1)) 8 ((.minus, text) :: ps) (negate f) := by
  intro ts rest hts hrest
  obtain ⟨t, us, rfl, hk, -, hus⟩ := Token.exists_of_map_piece_cons hts
  rw [List.cons_append, signedValue_run_minus hk, map_run (h us rest hus hrest)]

theorem reads_comparison {relation : Relation}
    (h : ∀ n, ps.length ≤ n → Reads (signedValue inner n) 8 ps f) :
    Reads (comparison inner relation) 8 ps ⟨relation, f⟩ := by
  intro ts rest hts hrest
  have hlength : ps.length ≤ (ts ++ rest).length + 1 := by
    rw [← hts, List.length_map, List.length_append]
    omega
  rw [comparison, bind_run remaining_run, bind_run (h _ hlength ts rest hts hrest)]
  rfl

variable {t : Target Formula} {o : Option (Target Formula)}

/-- How a condition is read after its comparator. -/
def ReadsComparison (inner : Parser Formula) (ps : List Piece) (t : Target Formula) : Prop :=
  ∃ k text qs, ps = (k, text) :: qs ∧ relation? k = some t.relation ∧
    Reads (comparison inner t.relation) 8 qs t

theorem reads_equality (hps : StartsWith (relation? · = none) ps)
    (h : Reads (comparison inner .equal) 8 ps ⟨.equal, f⟩) :
    Reads (target inner) 8 ps ⟨.equal, f⟩ := by
  intro ts rest hts hrest
  have hcomparison := h ts rest hts hrest
  obtain ⟨t, us, rfl, hk⟩ := hps.exists_cons hts
  rw [List.cons_append] at hcomparison ⊢
  rw [target_run_none (by simpa using hk), hcomparison]

theorem ReadsComparison.target (h : ReadsComparison inner ps t) : Reads (target inner) 8 ps t := by
  intro ts rest hts hrest
  obtain ⟨k, text, qs, rfl, hk, h⟩ := h
  obtain ⟨u, us, rfl, rfl, -, hus⟩ := Token.exists_of_map_piece_cons hts
  rw [List.cons_append, target_run_comparison hk, h us rest hus hrest]

theorem ReadsComparison.target? (h : ReadsComparison inner ps t) :
    Reads (target? inner) 8 ps (some t) := by
  intro ts rest hts hrest
  obtain ⟨k, text, qs, rfl, hk, h⟩ := h
  obtain ⟨u, us, rfl, rfl, -, hus⟩ := Token.exists_of_map_piece_cons hts
  rw [List.cons_append, target?_run_comparison hk, map_run (h us rest hus hrest)]

theorem ReadsComparison.filter? (h : ReadsComparison inner ps t) :
    Reads (filter? inner) 8 ps (some t) := by
  intro ts rest hts hrest
  obtain ⟨k, text, qs, rfl, hk, h⟩ := h
  obtain ⟨u, us, rfl, rfl, -, hus⟩ := Token.exists_of_map_piece_cons hts
  rw [List.cons_append, filter?_run_comparison hk, map_run (h us rest hus hrest)]

theorem reads_valued (hps : StartsWith (startsValue · = true) ps)
    (h : Reads (value inner) 8 ps f) : Reads (target? inner) 8 ps (some ⟨.equal, f⟩) := by
  intro ts rest hts hrest
  have hvalue := h ts rest hts hrest
  obtain ⟨t, us, rfl, hk⟩ := hps.exists_cons hts
  rw [List.cons_append] at hvalue ⊢
  rw [target?_run_value hk, map_run hvalue]

theorem reads_unconditional : Reads (target? inner) 6 [] none := by
  intro ts rest hts hrest
  obtain rfl := List.map_eq_nil_iff.mp hts
  exact target?_run_none (hrest.of_head fun _ => startsTarget_of_closes)

theorem reads_unfiltered : Reads (filter? inner) 6 [] none := by
  intro ts rest hts hrest
  obtain rfl := List.map_eq_nil_iff.mp hts
  exact filter?_run_none (hrest.of_head fun _ => relation?_of_closes)

theorem Reads.map {α β : Type} {p : Parser α} {rank : Nat} {a : α} (h : Reads p rank ps a)
    (g : α → β) : Reads (g <$> p) rank ps (g a) :=
  fun ts rest hts hrest => map_run (h ts rest hts hrest) g

theorem Reads.mono {α : Type} {p : Parser α} {rank rank' : Nat} {a : α} (h : Reads p rank ps a)
    (hle : rank' ≤ rank) : Reads p rank' ps a :=
  fun ts rest hts hrest => h ts rest hts (hrest.mono hle)

theorem closed_append {rank : Nat} {ts rest : List Token} (hts : ts.map Token.piece = ps)
    (hps : ∀ p ∈ ps.head?, closes rank (some p.1) = true) (hrest : Closed rank rest) :
    Closed rank (ts ++ rest) := by
  cases ts with
  | nil => exact hrest
  | cons t ts =>
    subst hts
    exact hps (Token.piece t) rfl

theorem reads_matching {counted : Bool}
    (hcount : Reads ((·.getD (.int 2)) <$> value? inner) 7 ps f)
    (hqs : ∀ p ∈ qs.head?, closes 7 (some p.1) = true) {rank : Nat} (hrank : rank ≤ 7)
    (hfilter : Reads (filter? inner) rank qs o) :
    Reads (matching inner counted) rank (ps ++ qs) ⟨f, counted, o⟩ := by
  intro ts rest hts hrest
  obtain ⟨us, vs, rfl, hus, hvs⟩ := List.map_eq_append_iff.mp hts
  have hclosed : Closed 7 (vs ++ rest) := closed_append hvs hqs (hrest.mono hrank)
  rw [List.append_assoc, matching_eq, bind_run (hcount us (vs ++ rest) hus hclosed),
    map_run (hfilter vs rest hvs hrest)]

variable {host : Host} {slot : Slot} {x : Addition} {xs : List Addition} {n : Nat}

theorem closes_of_slot? (h : slot? host k = some slot) : closes 6 (some k) = true := by
  cases host <;> cases k <;> first | rfl | cases h

theorem closes_of_relation? {relation : Relation} (h : relation? k = some relation) :
    closes 7 (some k) = true := by
  cases k <;> first | rfl | cases h

/-- What closes a condition does not close an addition that would take it up. -/
def rankAfter (isOpen : Bool) : Nat :=
  if isOpen then 6 else 7

theorem rankAfter_le (isOpen : Bool) : rankAfter isOpen ≤ 7 := by
  cases isOpen <;> decide

/-- How an addition is read: after its keyword, or after the comparator of a condition. -/
inductive ReadsAddition (inner : Parser Formula) (host : Host) : List Piece → Addition → Prop
  | slot {k : Kind} {slot : Slot} {x : Addition} {ps : List Piece} {text : List Char}
      (hk : slot? host k = some slot) (hx : x.isCondition = false)
      (h : Reads (slot.fill inner) (rankAfter x.isOpen) ps x) :
      ReadsAddition inner host ((k, text) :: ps) x
  | condition {t : Target Formula} {ps : List Piece} (h : ReadsComparison inner ps t) :
      ReadsAddition inner host ps (.modifier (.success t))

theorem ReadsAddition.closes_head {isOpen : Bool} (h : ReadsAddition inner host ps x)
    (hx : (isOpen && x.isCondition) = false) :
    ∀ p ∈ ps.head?, closes (rankAfter isOpen) (some p.1) = true := by
  cases h with
  | slot hk _ _ =>
    rintro _ ⟨⟩
    refine closes_mono (closes_of_slot? hk) ?_
    cases isOpen <;> decide
  | condition h =>
    obtain ⟨k, text, qs, rfl, hk, -⟩ := h
    rintro _ ⟨⟩
    obtain rfl : isOpen = false := by simpa [Addition.isCondition] using hx
    exact closes_of_relation? hk

theorem ReadsAddition.length_pos (h : ReadsAddition inner host ps x) : 0 < ps.length := by
  cases h with
  | slot => exact Nat.succ_pos _
  | condition h =>
    obtain ⟨k, text, qs, rfl, -⟩ := h
    exact Nat.succ_pos _

theorem ReadsAddition.run (h : ReadsAddition inner host ps x) {ts rest : List Token}
    (hts : ts.map Token.piece = ps) (hrest : Closed (rankAfter x.isOpen) rest) :
    additions host inner (n + 1) (ts ++ rest) = ((x :: ·) <$> additions host inner n) rest := by
  cases h with
  | slot hk hx h =>
    obtain ⟨t, us, rfl, rfl, -, hus⟩ := Token.exists_of_map_piece_cons hts
    rw [List.cons_append, additions_slot hk, bind_run (h us rest hus hrest)]
  | condition h =>
    obtain ⟨k, text, qs, rfl, hk, h⟩ := h
    obtain ⟨t, us, rfl, rfl, -, hus⟩ := Token.exists_of_map_piece_cons hts
    rw [List.cons_append, additions_comparison hk, bind_run (h us rest hus (closed_eight rest))]

theorem reads_more (hx : ReadsAddition inner host ps x)
    (hqs : ∀ p ∈ qs.head?, closes (rankAfter x.isOpen) (some p.1) = true)
    (hxs : Reads (additions host inner n) 5 qs xs) :
    Reads (additions host inner (n + 1)) 5 (ps ++ qs) (x :: xs) := by
  intro ts rest hts hrest
  obtain ⟨us, vs, rfl, hus, hvs⟩ := List.map_eq_append_iff.mp hts
  have hrank : 5 ≤ rankAfter x.isOpen := by cases x.isOpen <;> decide
  rw [List.append_assoc, hx.run hus (closed_append hvs hqs (hrest.mono hrank)),
    map_run (hxs vs rest hvs hrest)]

theorem reads_nothing : Reads (additions host inner n) 5 [] [] := by
  intro ts rest hts hrest
  obtain rfl := List.map_eq_nil_iff.mp hts
  exact hrest.additions host n

theorem reads_sides (hps : StartsWith (startsValue · = true) ps)
    (h : Reads (value inner) 8 ps f) : Reads (faces inner) 8 ps (.sides f) := by
  intro ts rest hts hrest
  have hvalue := h ts rest hts hrest
  obtain ⟨t, us, rfl, hk⟩ := hps.exists_cons hts
  rw [List.cons_append] at hvalue ⊢
  rw [faces_run_value hk, map_run hvalue]

theorem reads_percent : Reads (faces inner) 8 [(.percent, text)] (.sides (.int 100)) := by
  intro ts rest hts _
  obtain ⟨t, us, rfl, hk, -, hus⟩ := Token.exists_of_map_piece_cons hts
  obtain rfl := List.map_eq_nil_iff.mp hus
  exact faces_run_percent hk

theorem reads_fate : Reads (faces inner) 8 [(.fate, text)] .fate := by
  intro ts rest hts _
  obtain ⟨t, us, rfl, hk, -, hus⟩ := Token.exists_of_map_piece_cons hts
  obtain rfl := List.map_eq_nil_iff.mp hus
  exact faces_run_fate hk

theorem reads_plain (hps : StartsWith (startsValue · = true) ps)
    (h : Reads (value inner) 8 ps f) : Reads (unlabeled inner) 5 ps f := by
  intro ts rest hts hrest
  have hvalue := h ts rest hts (closed_eight rest)
  obtain ⟨t, us, rfl, hk⟩ := hps.exists_cons hts
  rw [List.cons_append] at hvalue ⊢
  rw [unlabeled_run_value hk, bind_run hvalue, hrest.countOrValue]

theorem unlabeled_run_count (h : ps = [] ∧ f = .int 1 ∨
      StartsWith (startsValue · = true) ps ∧ Reads (value inner) 8 ps f)
    {ts rest : List Token} {t : Token} (hts : ts.map Token.piece = ps) (hk : t.kind = .dice) :
    unlabeled inner (ts ++ t :: rest) = dice inner f (t :: rest) := by
  rcases h with ⟨rfl, rfl⟩ | ⟨hps, h⟩
  · obtain rfl := List.map_eq_nil_iff.mp hts
    exact unlabeled_run_dice hk
  · have hvalue := h ts (t :: rest) hts (closed_eight _)
    obtain ⟨u, us, rfl, hku⟩ := hps.exists_cons hts
    rw [List.cons_append] at hvalue ⊢
    rw [unlabeled_run_value hku, bind_run hvalue, countOrValue, bind_run (peek_cons hk), if_pos rfl]

theorem reads_dice {s : Faces Formula} {rs : List Piece} (hcount : ps = [] ∧ f = .int 1 ∨
      StartsWith (startsValue · = true) ps ∧ Reads (value inner) 8 ps f)
    (hfaces : Reads (faces inner) 8 qs s)
    (hxs : ∀ n, rs.length ≤ n → Reads (additions .die inner n) 5 rs xs) :
    Reads (unlabeled inner) 5 (ps ++ (.dice, text) :: qs ++ rs)
      (.die (xs.foldl Die.add (.plain f s))) := by
  intro ts rest hts hrest
  obtain ⟨us', ws, rfl, hus', hws⟩ := List.map_eq_append_iff.mp hts
  obtain ⟨us, t, vs, rfl, hus, hk, hvs⟩ := Token.exists_of_map_piece_append hus'
  have hlength : rs.length ≤ (ws ++ rest).length := by
    rw [← hws, List.length_map, List.length_append]
    omega
  simp only [List.append_assoc, List.cons_append]
  rw [unlabeled_run_count hcount hus hk, dice, bind_run (take_run hk),
    bind_run (hfaces vs (ws ++ rest) hvs (closed_eight _)), bind_run remaining_run, dieRest_eq,
    bind_run (map_run (hxs _ hlength ws rest hws hrest) _)]
  rfl

/-- How the members of a group after its first are read, which a brace closes. -/
def ReadsMembers (inner : Parser Formula) (n : Nat) (ps : List Piece) (fs : List Formula) : Prop :=
  ∀ ts rest, ts.map Token.piece = ps → rest.head?.map Token.kind = some .rightBrace →
    members inner n (ts ++ rest) = .ok (fs, rest)

variable {fs : List Formula}

theorem readsMembers_alone : ReadsMembers inner n [] [] := by
  intro ts rest hts hrest
  obtain rfl := List.map_eq_nil_iff.mp hts
  cases n with
  | zero => rfl
  | succ n =>
    rw [List.nil_append, members, bind_run peek_run, hrest]
    rfl

theorem readsMembers_member (h : Reads inner 0 ps f) (hqs : ∀ p ∈ qs.head?, p.1 = .comma)
    (hfs : ReadsMembers inner n qs fs) :
    ReadsMembers inner (n + 1) ((.comma, text) :: ps ++ qs) (f :: fs) := by
  intro ts rest hts hrest
  obtain ⟨us', vs, rfl, hus', hvs⟩ := List.map_eq_append_iff.mp hts
  obtain ⟨t, us, rfl, hk, -, hus⟩ := Token.exists_of_map_piece_cons hus'
  have hclosed : Closed 0 (vs ++ rest) := by
    refine closed_append hvs (fun p hp => ?_) ?_
    · rw [hqs p hp]
      rfl
    · rw [Closed, hrest]
      rfl
  simp only [List.append_assoc, List.cons_append]
  rw [members, bind_run (peek_cons hk), if_pos rfl, bind_run (skip_run t),
    bind_run (h us (vs ++ rest) hus hclosed), bind_run (hfs vs rest hvs hrest)]
  rfl

theorem reads_group {rs : List Piece} (h : Reads inner 0 ps f)
    (hqs : ∀ p ∈ qs.head?, p.1 = .comma) (hfs : ∀ n, qs.length ≤ n → ReadsMembers inner n qs fs)
    (hxs : ∀ n, rs.length ≤ n → Reads (additions .group inner n) 5 rs xs) :
    Reads (unlabeled inner) 5 ((.leftBrace, l) :: ps ++ qs ++ (.rightBrace, r) :: rs)
      (.bare (.group f fs (xs.flatMap Addition.modifiers))) := by
  intro ts rest hts hrest
  obtain ⟨us', u, ws, rfl, hus', hku, hws⟩ := Token.exists_of_map_piece_append hts
  obtain ⟨us, vs, rfl, hus, hvs⟩ := List.map_eq_append_iff.mp hus'
  obtain ⟨t, us, rfl, hk, -, hus⟩ := Token.exists_of_map_piece_cons hus
  have hbrace : ((u :: (ws ++ rest)).head?.map Token.kind) = some .rightBrace := congrArg some hku
  have hclosed : Closed 0 (vs ++ u :: (ws ++ rest)) := by
    refine closed_append hvs (fun p hp => ?_) (closed_cons hku rfl)
    rw [hqs p hp]
    rfl
  have hmembers : qs.length ≤ (vs ++ u :: (ws ++ rest)).length := by
    rw [← hvs, List.length_map, List.length_append]
    omega
  have hadditions : rs.length ≤ (ws ++ rest).length := by
    rw [← hws, List.length_map, List.length_append]
    omega
  simp only [List.append_assoc, List.cons_append]
  rw [unlabeled_run_group hk, group, bind_run (take_run hk),
    bind_run (h us _ hus hclosed), bind_run remaining_run,
    bind_run (hfs _ hmembers vs _ hvs hbrace), bind_run (take_run hku), bind_run remaining_run,
    groupRest_eq, bind_run (map_run (hxs _ hadditions ws rest hws hrest) _)]
  rfl

theorem reads_inline (h : Reads inner 0 ps f) :
    Reads (unlabeled inner) 5 ((.inlineOpen, l) :: ps ++ [(.inlineClose, r)])
      (.bare (.inline f)) := by
  intro ts rest hts _
  obtain ⟨_, u, vs, rfl, hopen, hku, hvs⟩ := Token.exists_of_map_piece_append hts
  obtain ⟨t, us, rfl, hk, -, hus⟩ := Token.exists_of_map_piece_cons hopen
  obtain rfl := List.map_eq_nil_iff.mp hvs
  simp only [List.cons_append, List.nil_append, List.append_assoc]
  rw [unlabeled_run_inline hk, inline, bind_run (take_run hk),
    bind_run (h us (u :: rest) hus (closed_cons hku rfl)), bind_run (take_run hku)]
  rfl

theorem reads_function {g : NumericFunction} (hk : function? k = some g)
    (h : Reads (parenthesized inner) 8 ps f) :
    Reads (unlabeled inner) 5 ((k, text) :: ps) (.bare (.function g f)) := by
  intro ts rest hts _
  obtain ⟨t, us, rfl, rfl, -, hus⟩ := Token.exists_of_map_piece_cons hts
  rw [List.cons_append, unlabeled_run_function hk, map_run (h us rest hus (closed_eight rest))]

theorem reads_replacement (h : Reads (parenthesized inner) 8 ps f) :
    Reads (unlabeled inner) 5 ((.replacement, text) :: ps)
      (.bare (.replacement (String.ofList (text.drop 1)) f)) := by
  intro ts rest hts _
  obtain ⟨t, us, rfl, hk, rfl, hus⟩ := Token.exists_of_map_piece_cons hts
  rw [List.cons_append, unlabeled_run_replacement hk, map_run (h us rest hus (closed_eight rest))]

theorem labels_run {texts : List (List Char)} {ts rest : List Token}
    (hts : ts.map Token.piece = texts.map fun text => (.label, text)) (hn : texts.length ≤ n)
    (hrest : Closed 4 rest) (f : Formula) :
    labels n f (ts ++ rest) = .ok (labeled f texts, rest) := by
  induction texts generalizing ts n f with
  | nil =>
    obtain rfl := List.map_eq_nil_iff.mp hts
    exact labels_run_none hrest.not_label n f
  | cons text texts ih =>
    obtain ⟨t, us, rfl, hk, rfl, hus⟩ := Token.exists_of_map_piece_cons hts
    obtain ⟨n, rfl⟩ := Nat.exists_eq_succ_of_ne_zero (Nat.pos_iff_ne_zero.mp (Nat.lt_of_lt_of_le
      (Nat.succ_pos _) hn))
    rw [List.cons_append, labels_run_label hk]
    exact ih hus (Nat.le_of_succ_le_succ hn) _

theorem reads_labels (h : Reads (unlabeled inner) 5 ps f) (texts : List (List Char)) :
    Reads (term inner) 4 (ps ++ texts.map fun text => (.label, text)) (labeled f texts) := by
  intro ts rest hts hrest
  obtain ⟨us, vs, rfl, hus, hvs⟩ := List.map_eq_append_iff.mp hts
  have hclosed : Closed 5 (vs ++ rest) := by
    refine closed_append hvs (fun p hp => ?_) (hrest.mono (by decide))
    cases texts with
    | nil => simp at hp
    | cons text texts =>
      obtain rfl := Option.some.inj hp
      rfl
  have hlength : texts.length ≤ (vs ++ rest).length := by
    have := congrArg List.length hvs
    simp only [List.length_map] at this
    rw [List.length_append]
    omega
  rw [List.append_assoc, term, bind_run (h us (vs ++ rest) hus hclosed), bind_run remaining_run,
    labels_run hvs hlength hrest]

theorem reads_plus (h : Reads (signed inner n) 2 ps f) :
    Reads (signed inner (n + 1)) 2 ((.plus, text) :: ps) f := by
  intro ts rest hts hrest
  obtain ⟨t, us, rfl, hk, -, hus⟩ := Token.exists_of_map_piece_cons hts
  rw [List.cons_append, signed, bind_run (peek_cons hk)]
  show (skip >>= fun _ => signed inner n) _ = _
  rw [bind_run (skip_run t), h us rest hus hrest]

theorem closes_of_multiplier? {op : Operator} (h : multiplier? k = some op) :
    closes 2 (some k) = true := by
  cases k <;> first | rfl | cases h

theorem closes_of_sign? {op : Sign} (h : sign? k = some op) : closes 1 (some k) = true := by
  cases k <;> first | rfl | cases h

end Parser

/-- How the parsers read the pieces of a construct, if they have fuel for all of them. -/
def Construct.Read : Construct → List Piece → Prop
  | parens f, ps => StartsWith (· = .leftParen) ps ∧
      ∀ n, ps.length ≤ n → Reads (parenthesized (formula n)) 8 ps f
  | value f, ps => StartsWith (startsValue · = true) ps ∧
      ∀ n, ps.length ≤ n → Reads (Parser.value (formula n)) 8 ps f
  | count default f, ps => ps = [] ∧ f = default ∨ StartsWith (startsValue · = true) ps ∧
      ∀ n, ps.length ≤ n → Reads (Parser.value (formula n)) 8 ps f
  | signedValue f, ps => StartsWith (relation? · = none) ps ∧
      ∀ n m, ps.length ≤ n → ps.length ≤ m → Reads (Parser.signedValue (formula n) m) 8 ps f
  | comparison t, ps => ∀ n, ps.length ≤ n → ReadsComparison (formula n) ps t
  | target t, ps => ∀ n, ps.length ≤ n → Reads (Parser.target (formula n)) 8 ps t
  | condition t, ps => ∀ n, ps.length ≤ n →
      Reads (target? (formula n)) (rankAfter t.isNone) ps t
  | filter t, ps => (∀ p ∈ ps.head?, closes 7 (some p.1) = true) ∧ ∀ n, ps.length ≤ n →
      Reads (filter? (formula n)) (rankAfter t.isNone) ps t
  | addition host x, ps => ∀ n, ps.length ≤ n → ReadsAddition (formula n) host ps x
  | additions host isOpen xs, ps => (∀ p ∈ ps.head?, closes (rankAfter isOpen) (some p.1) = true) ∧
      ∀ n m, ps.length ≤ n → ps.length ≤ m → Reads (Parser.additions host (formula n) m) 5 ps xs
  | faces s, ps => ∀ n, ps.length ≤ n → Reads (Parser.faces (formula n)) 8 ps s
  | members fs, ps => (∀ p ∈ ps.head?, p.1 = .comma) ∧
      ∀ n m, ps.length ≤ n → ps.length ≤ m → ReadsMembers (formula n) m ps fs
  | unlabeled f, ps => StartsWith (sign? · = none) ps ∧
      ∀ n, ps.length ≤ n → Reads (Parser.unlabeled (formula n)) 5 ps f
  | term f, ps => StartsWith (sign? · = none) ps ∧
      ∀ n, ps.length ≤ n → Reads (Parser.term (formula n)) 4 ps f
  | signed f, ps => ∀ n m, ps.length ≤ n → ps.length < m →
      Reads (Parser.signed (formula n) m) 2 ps f
  | product head tail, ps => ∀ n, ps.length ≤ n →
      ReadsChain multiplier? (factor (formula n)) 2 ps head tail
  | sum head tail, ps => ∀ n, ps.length ≤ n →
      ReadsChain sign? (Parser.product (formula n)) 1 ps head tail

theorem length_lt_of_append {ps qs : List Piece} {p : Piece} {n : Nat}
    (h : (ps ++ p :: qs).length ≤ n) : ps.length < n ∧ qs.length < n := by
  rw [List.length_append, List.length_cons] at h
  omega

/-- The parsers read all that the grammar derives. Brackets use up fuel for formulas, and each turn of
a loop that of the loop; every use is paid for by a piece. -/
theorem Grammar.read {c : Construct} {ps : List Piece} (h : Grammar c ps) : c.Read ps := by
  induction h with
  | @parens head tail ps l r h ih =>
    refine ⟨⟨_, _, _, rfl, rfl⟩, fun n hn => ?_⟩
    cases n with
    | zero => simp at hn
    | succ n =>
      rw [List.cons_append, List.length_cons, Nat.succ_le_succ_iff] at hn
      exact reads_parenthesized (reads_sum (ih n (length_lt_of_append hn).1.le))
  | integer h => exact ⟨⟨_, _, _, rfl, rfl⟩, fun n _ => reads_integer h⟩
  | decimal text => exact ⟨⟨_, _, _, rfl, rfl⟩, fun n _ => reads_decimal⟩
  | enclosed h ih =>
    refine ⟨ih.1.mono fun k hk => ?_, fun n hn => reads_enclosed ih.1 (ih.2 n hn)⟩
    rw [hk]
    rfl
  | default f => exact .inl ⟨rfl, rfl⟩
  | count h ih => exact .inr ih
  | unsignedValue h ih =>
    refine ⟨ih.1.mono fun k hk => ?_, fun n m hn hm => ?_⟩
    · cases k <;> first | rfl | cases hk
    · cases m with
      | zero => exact absurd ih.1.length_pos (by omega)
      | succ m => exact reads_unsignedValue ih.1 (ih.2 n hn)
  | negate h ih =>
    refine ⟨⟨_, _, _, rfl, rfl⟩, fun n m hn hm => ?_⟩
    cases m with
    | zero => simp at hm
    | succ m =>
      exact reads_negate (ih.2 n m (Nat.le_of_succ_le hn) (Nat.le_of_succ_le_succ hm))
  | comparison hk h ih =>
    exact fun n hn => ⟨_, _, _, rfl, hk, reads_comparison fun m hm =>
      ih.2 n m (Nat.le_of_succ_le hn) hm⟩
  | equality h ih =>
    exact fun n hn => reads_equality ih.1 (reads_comparison fun m hm => ih.2 n m hn hm)
  | compared h ih => exact fun n hn => (ih n hn).target
  | unconditional => exact fun n _ => reads_unconditional
  | valued h ih =>
    exact fun n hn ts rest hts _ => reads_valued ih.1 (ih.2 n hn) ts rest hts (closed_eight rest)
  | conditional h ih =>
    exact fun n hn ts rest hts _ => (ih n hn).target? ts rest hts (closed_eight rest)
  | unfiltered => exact ⟨nofun, fun n _ => reads_unfiltered⟩
  | @filtered t ps h ih =>
    refine ⟨fun p hp => ?_, fun n hn ts rest hts _ => (ih n hn).filter? ts rest hts (closed_eight rest)⟩
    obtain ⟨k, text, qs, rfl, hk, -⟩ := ih ps.length (Nat.le_refl _)
    obtain rfl := Option.some.inj hp
    exact closes_of_relation? hk
  | success h ih => exact fun n hn => .condition (ih n hn)
  | @counted host k make f ps text hk h ih =>
    intro n hn
    obtain ⟨hopen, hcondition⟩ := isOpen_counted hk f
    refine .slot hk hcondition ?_
    have hcount := reads_count (ih.imp id fun h => ⟨h.1, h.2 n (Nat.le_of_succ_le hn)⟩)
    have hfill := hcount.map fun f => Addition.modifier (make f)
    rw [Functor.map_map] at hfill
    rw [hopen]
    exact hfill
  | @optional host k make t ps text hk h ih =>
    intro n hn
    obtain ⟨hopen, hcondition⟩ := isOpen_optional hk t
    refine .slot hk hcondition ?_
    rw [hopen]
    exact (ih n (Nat.le_of_succ_le hn)).map _
  | @required host k make t ps text hk h ih =>
    intro n hn
    obtain ⟨hopen, hcondition⟩ := isOpen_required hk t
    refine .slot hk hcondition ?_
    rw [hopen]
    exact ((ih n (Nat.le_of_succ_le hn)).map _).mono (by decide)
  | sorting hk =>
    intro n hn
    refine .slot hk rfl fun ts rest hts _ => ?_
    obtain rfl := List.map_eq_nil_iff.mp hts
    rfl
  | @matching host k counted f t ps qs text hk hcount hfilter ihcount ihfilter =>
    intro n hn
    rw [List.cons_append, List.length_cons, List.length_append] at hn
    have hopen : (Addition.matching ⟨f, counted, t⟩).isOpen = t.isNone := by cases t <;> rfl
    refine .slot hk rfl ?_
    rw [hopen]
    exact (reads_matching (reads_count (ihcount.imp id fun h => ⟨h.1, h.2 n (by omega)⟩)) ihfilter.1
      (rankAfter_le _) (ihfilter.2 n (by omega))).map Addition.matching
  | nothing => exact ⟨nofun, fun n m _ _ => reads_nothing⟩
  | @more host isOpen x xs ps qs hx h hxs ih ihxs =>
    have hread := ih ps.length (Nat.le_refl _)
    have hps := hread.length_pos
    refine ⟨fun p hp => hread.closes_head hx p ?_, fun n m hn hm => ?_⟩
    · obtain ⟨q, ps, rfl⟩ := List.exists_cons_of_length_pos hps
      exact hp
    · rw [List.length_append] at hn hm
      cases m with
      | zero => omega
      | succ m => exact reads_more (ih n (by omega)) ihxs.1 (ihxs.2 n m (by omega) (by omega))
  | sides h ih => exact fun n hn => reads_sides ih.1 (ih.2 n hn)
  | percent text => exact fun n _ => reads_percent
  | fate text => exact fun n _ => reads_fate
  | alone => exact ⟨nofun, fun n m _ _ => readsMembers_alone⟩
  | @member head tail fs ps qs text h hfs ih ihfs =>
    refine ⟨fun p hp => ?_, fun n m hn hm => ?_⟩
    · obtain rfl := Option.some.inj hp
      rfl
    · rw [List.cons_append, List.length_cons, List.length_append] at hn hm
      cases n with
      | zero => omega
      | succ n =>
        cases m with
        | zero => omega
        | succ m =>
          exact readsMembers_member (reads_sum (ih n (by omega))) ihfs.1
            (ihfs.2 (n + 1) m (by omega) (by omega))
  | plain h ih =>
    refine ⟨ih.1.mono fun k hk => ?_, fun n hn => reads_plain ih.1 (ih.2 n hn)⟩
    cases k <;> first | rfl | cases hk
  | @dice f s xs ps qs rs text hcount hfaces hxs ihcount ihfaces ihxs =>
    refine ⟨?_, fun n hn => ?_⟩
    · rcases ihcount with ⟨rfl, -⟩ | ⟨hps, -⟩
      · exact ⟨_, _, _, rfl, rfl⟩
      · refine ((hps.append _).append _).mono fun k hk => ?_
        cases k <;> first | rfl | cases hk
    · simp only [List.length_append, List.length_cons] at hn
      exact reads_dice (ihcount.imp id fun h => ⟨h.1, h.2 n (by omega)⟩) (ihfaces n (by omega))
        fun m hm => ihxs.2 n m (by omega) hm
  | @group head tail fs xs ps qs rs l r h hfs hxs ih ihfs ihxs =>
    refine ⟨⟨_, _, _, rfl, rfl⟩, fun n hn => ?_⟩
    simp only [List.cons_append, List.length_append, List.length_cons] at hn
    cases n with
    | zero => omega
    | succ n =>
      exact reads_group (reads_sum (ih n (by omega))) ihfs.1
        (fun m hm => ihfs.2 (n + 1) m (by omega) hm) fun m hm => ihxs.2 (n + 1) m (by omega) hm
  | @inline head tail ps l r h ih =>
    refine ⟨⟨_, _, _, rfl, rfl⟩, fun n hn => ?_⟩
    cases n with
    | zero => simp at hn
    | succ n =>
      rw [List.cons_append, List.length_cons, Nat.succ_le_succ_iff] at hn
      exact reads_inline (reads_sum (ih n (length_lt_of_append hn).1.le))
  | @function k g f ps text hk h ih =>
    refine ⟨⟨_, _, _, rfl, ?_⟩, fun n hn => reads_function hk (ih.2 n (Nat.le_of_succ_le hn))⟩
    cases k <;> first | rfl | cases hk
  | replacement h ih =>
    exact ⟨⟨_, _, _, rfl, rfl⟩, fun n hn => reads_replacement (ih.2 n (Nat.le_of_succ_le hn))⟩
  | labels h texts ih =>
    refine ⟨ih.1.append _, fun n hn => reads_labels (ih.2 n ?_) texts⟩
    rw [List.length_append] at hn
    omega
  | unsigned h ih =>
    intro n m hn hm
    obtain ⟨⟨k, text, qs, rfl, hk⟩, hread⟩ := ih
    cases m with
    | zero => simp at hm
    | succ m => exact reads_unsigned hk (hread n hn)
  | power hbase h ihbase ih =>
    intro n m hn hm
    obtain ⟨hps, hqs⟩ := length_lt_of_append hn
    obtain ⟨⟨k, text, qs, rfl, hk⟩, hread⟩ := ihbase
    cases m with
    | zero => simp at hm
    | succ m =>
      have hqm := (length_lt_of_append (Nat.le_of_lt_succ hm)).2
      exact reads_power hk (hread n hps.le) (ih n m hqs.le hqm)
  | minus h ih =>
    intro n m hn hm
    cases m with
    | zero => simp at hm
    | succ m => exact reads_minus (ih n m (Nat.le_of_succ_le hn) (Nat.lt_of_succ_lt_succ hm))
  | plus h ih =>
    intro n m hn hm
    cases m with
    | zero => simp at hm
    | succ m => exact reads_plus (ih n m (Nat.le_of_succ_le hn) (Nat.lt_of_succ_lt_succ hm))
  | factor h ih => exact fun n hn => (reads_factor fun m hm => ih n m hn hm).chain
  | times hk hleft hright ihleft ihright =>
    intro n hn
    obtain ⟨hps, hqs⟩ := length_lt_of_append hn
    exact (ihleft n hps.le).snoc hk (closes_of_multiplier? hk)
      (reads_factor fun m hm => ihright n m hqs.le hm)
  | summand h ih => exact fun n hn => (reads_product (ih n hn)).chain
  | added hk hleft hright ihleft ihright =>
    intro n hn
    obtain ⟨hps, hqs⟩ := length_lt_of_append hn
    exact (ihleft n hps.le).snoc hk (closes_of_sign? hk) (reads_product (ihright n hqs.le))

/-- A text of pieces that make up a formula is read as that formula. -/
theorem Grammar.parse {head : Formula} {tail : List (Sign × Formula)} {ps : List Piece}
    (h : Grammar (.sum head tail) ps) {text : String} (htext : Token.Spells text.toList ps) :
    Formula.parse text = .ok (sumOf head tail) := by
  have hpieces := htext.map_piece_scan
  have hlength : ps.length ≤ (Token.scan text.toList).length := by
    rw [← hpieces, List.length_map]
  have hread := reads_sum (h.read _ hlength)
  rw [← hpieces] at hread
  rw [Formula.parse, whole_run hread]

end DiceNotation

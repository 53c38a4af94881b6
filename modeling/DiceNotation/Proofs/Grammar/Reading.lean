import DiceNotation.Proofs.Grammar.Additions
import DiceNotation.Proofs.Token.Spelling

/-! What the parsers of arithmetic read. A parser reads certain tokens as something if it does so
wherever they stand in a text, as long as what follows closes them: the looser an operator binds, the
more it closes. -/

namespace DiceNotation.Parser

open Token (Kind Piece)

/-- Whether a token of the kind closes what binds as tightly as the rank or tighter. The end of the
text and what closes a bracket close everything, and an operator what binds tighter than itself.
Behind the operators come labels, the keywords of additions and comparators, which go on with all
that could take them up; anything else closes only what has an end of its own. -/
def closes (rank : Nat) : Option Kind → Bool
  | none | some .rightParen | some .rightBrace | some .comma | some .inlineClose => true
  | some .plus | some .minus => 1 ≤ rank
  | some .star | some .slash | some .percent => 2 ≤ rank
  | some .starStar => 4 ≤ rank
  | some .label => 5 ≤ rank
  | some k => if (slot? .die k).isSome then 6 ≤ rank else if k.isComparator then 7 ≤ rank else 8 ≤ rank

/-- Whether the first of these tokens closes the rank. -/
def Closed (rank : Nat) (rest : List Token) : Prop :=
  closes rank (rest.head?.map Token.kind) = true

section Closed

variable {rank : Nat} {rest : List Token} {inner : Parser Formula}

theorem closes_mono {k : Option Kind} {rank' : Nat} (h : closes rank k = true)
    (hle : rank ≤ rank') : closes rank' k = true := by
  unfold closes at h ⊢
  split <;> simp_all <;> grind

theorem closed_cons {t : Token} {k : Kind} (hk : t.kind = k) (h : closes rank (some k) = true) :
    Closed rank (t :: rest) := by
  rw [← hk] at h
  exact h

theorem Closed.mono {rank' : Nat} (h : Closed rank rest) (hle : rank ≤ rank') :
    Closed rank' rest :=
  closes_mono h hle

/-- What has an end of its own is closed by anything. -/
theorem closed_eight (rest : List Token) : Closed 8 rest := by
  cases rest with
  | nil => rfl
  | cons t rest =>
    obtain ⟨k, start, stop, text⟩ := t
    cases k <;> rfl

theorem Closed.of_head {P : Kind → Prop} (h : Closed rank rest)
    (hP : ∀ k, closes rank (some k) = true → P k) : ∀ t ∈ rest.head?, P t.kind := by
  cases rest with
  | nil => simp
  | cons t rest =>
    rintro _ ⟨⟩
    exact hP _ h

theorem multiplier?_of_closes {k : Kind} (h : closes 1 (some k) = true) : multiplier? k = none := by
  cases k <;> first | rfl | cases h

theorem Closed.multiplier? (h : Closed 1 rest) : ∀ t ∈ rest.head?, multiplier? t.kind = none :=
  h.of_head fun _ => multiplier?_of_closes

theorem sign?_of_closes {k : Kind} (h : closes 0 (some k) = true) : sign? k = none := by
  cases k <;> first | rfl | cases h

theorem Closed.sign? (h : Closed 0 rest) : ∀ t ∈ rest.head?, sign? t.kind = none :=
  h.of_head fun _ => sign?_of_closes

theorem Closed.not_starStar (h : Closed 2 rest) : rest.head?.map Token.kind ≠ some .starStar := by
  intro heq
  rw [Closed, heq] at h
  cases h

theorem Closed.not_label (h : Closed 4 rest) : ∀ t ∈ rest.head?, t.kind ≠ .label :=
  h.of_head (P := (· ≠ .label)) fun k hk => by
    rintro rfl
    cases hk

theorem Closed.countOrValue (h : Closed 5 rest) (f : Formula) :
    countOrValue inner f rest = .ok (f, rest) := by
  have hk : rest.head?.map Token.kind ≠ some .dice := by
    intro heq
    rw [Closed, heq] at h
    cases h
  rw [Parser.countOrValue, bind_run peek_run, if_neg hk]
  rfl

theorem slot?_of_closes {k : Kind} (h : closes 5 (some k) = true) (host : Host) :
    relation? k = none ∧ slot? host k = none := by
  cases host <;> cases k <;> first | exact ⟨rfl, rfl⟩ | cases h

theorem Closed.additions (h : Closed 5 rest) (host : Host) (n : Nat) :
    additions host inner n rest = .ok ([], rest) :=
  additions_stop (h.of_head fun _ hk => slot?_of_closes hk host) n

theorem startsValue_of_closes {k : Kind} (h : closes 7 (some k) = true) :
    startsValue k = false := by
  cases k <;> first | rfl | cases h

theorem startsTarget_of_closes {k : Kind} (h : closes 6 (some k) = true) :
    startsTarget k = false := by
  cases k <;> first | rfl | cases h

theorem relation?_of_closes {k : Kind} (h : closes 6 (some k) = true) : relation? k = none := by
  cases k <;> first | rfl | cases h

end Closed

/-- The parser reads these pieces as `a`, and stops at what closes the rank. -/
def Reads {α : Type} (p : Parser α) (rank : Nat) (ps : List Piece) (a : α) : Prop :=
  ∀ ts rest, ts.map Token.piece = ps → Closed rank rest → p (ts ++ rest) = .ok (a, rest)

section Signed

variable {inner : Parser Formula} {n : Nat} {ps qs : List Piece} {f : Formula}

theorem signed_run {t : Token} (hk : sign? t.kind = none) (ts : List Token) :
    signed inner (n + 1) (t :: ts) = (do
      let base ← term inner
      if (← peek) = some .starStar then
        skip
        let exponent ← signed inner n
        return .bare (.arithmetic base [(.pow, exponent)])
      else pure base : Parser Formula) (t :: ts) := by
  obtain ⟨k, start, stop, text⟩ := t
  cases k <;> first | rfl | cases hk

/-- A term that starts with neither sign. -/
theorem reads_unsigned {k : Kind} {text : List Char} (hk : sign? k = none)
    (h : Reads (term inner) 4 ((k, text) :: ps) f) :
    Reads (signed inner (n + 1)) 2 ((k, text) :: ps) f := by
  intro ts rest hts hrest
  have hterm := h ts rest hts (hrest.mono (by omega))
  obtain ⟨t, us, rfl, rfl, -, -⟩ := Token.exists_of_map_piece_cons hts
  rw [List.cons_append] at hterm ⊢
  rw [signed_run hk, bind_run hterm, bind_run peek_run, if_neg hrest.not_starStar]
  rfl

theorem reads_power {k : Kind} {text sym : List Char} {base : Formula} (hk : sign? k = none)
    (h : Reads (term inner) 4 ((k, text) :: ps) base) (hf : Reads (signed inner n) 2 qs f) :
    Reads (signed inner (n + 1)) 2 ((k, text) :: ps ++ (.starStar, sym) :: qs)
      (.bare (.arithmetic base [(.pow, f)])) := by
  intro ts rest hts hrest
  obtain ⟨us, v, vs, rfl, hus, hkv, hvs⟩ := Token.exists_of_map_piece_append hts
  have hterm := h us (v :: (vs ++ rest)) hus (closed_cons hkv rfl)
  obtain ⟨t, us, rfl, rfl, -, -⟩ := Token.exists_of_map_piece_cons hus
  rw [List.cons_append] at hterm
  rw [List.append_assoc, List.cons_append, List.cons_append, signed_run hk, bind_run hterm,
    bind_run (peek_cons hkv), if_pos rfl, bind_run (skip_run v), bind_run (hf vs rest hvs hrest)]
  rfl

theorem reads_minus {sym : List Char} (hf : Reads (signed inner n) 2 qs f) :
    Reads (signed inner (n + 1)) 2 ((.minus, sym) :: qs) (opposite f) := by
  intro ts rest hts hrest
  obtain ⟨t, us, rfl, hk, -, hus⟩ := Token.exists_of_map_piece_cons hts
  rw [List.cons_append, signed, bind_run (peek_cons hk)]
  show (skip >>= fun _ => opposite <$> signed inner n) _ = _
  rw [bind_run (skip_run t), map_run (hf us rest hus hrest)]

theorem reads_factor (h : ∀ n, ps.length < n → Reads (signed inner n) 2 ps f) :
    Reads (factor inner) 2 ps f := by
  intro ts rest hts hrest
  have hlength : ps.length ≤ (ts ++ rest).length := by
    rw [← hts, List.length_map, List.length_append]
    omega
  rw [factor, bind_run remaining_run]
  exact h _ (by omega) ts rest hts hrest

end Signed

/-- The two parsers read these pieces as a head and a chain of operators. What follows may go on
with the chain. -/
def ReadsChain {ω : Type} (op? : Kind → Option ω) (operand : Parser Formula) (rank : Nat)
    (ps : List Piece) (head : Formula) (tail : List (ω × Formula)) : Prop :=
  ∀ ts rest, ts.map Token.piece = ps → Closed rank rest →
    ∃ us, tail.length ≤ us.length ∧ operand (ts ++ rest) = .ok (head, us ++ rest) ∧
      ∀ n, chain op? operand (tail.length + n) (us ++ rest) =
        ((tail ++ ·) <$> chain op? operand n) rest

section Chains

variable {ω : Type} {op? : Kind → Option ω} {operand : Parser Formula} {rank : Nat}
  {ps qs : List Piece} {head f : Formula} {tail : List (ω × Formula)}

theorem chain_cons {op : ω} {t : Token} {ts rest : List Token} (hop : op? t.kind = some op)
    (hf : operand ts = .ok (f, rest)) (n : Nat) :
    chain op? operand (n + 1) (t :: ts) = (((op, f) :: ·) <$> chain op? operand n) rest := by
  rw [chain, bind_run (choose_run_some hop)]
  show (operand >>= fun f => chain op? operand n >>= fun tail => pure ((op, f) :: tail)) ts = _
  rw [bind_run hf, bind_pure_comp]

theorem chain_stop {rest : List Token} (h : ∀ t ∈ rest.head?, op? t.kind = none) (n : Nat) :
    chain op? operand n rest = .ok ([], rest) := by
  cases n with
  | zero => rfl
  | succ n =>
    rw [chain, bind_run (choose_run_none h)]
    rfl

theorem Reads.chain (h : Reads operand rank ps f) : ReadsChain op? operand rank ps f [] :=
  fun ts rest hts hrest => ⟨[], Nat.le_refl _, h ts rest hts hrest, fun n => by simp⟩

/-- A chain grows at its end. -/
theorem ReadsChain.snoc {k : Kind} {op : ω} {sym : List Char}
    (h : ReadsChain op? operand rank ps head tail) (hop : op? k = some op)
    (hk : closes rank (some k) = true) (hf : Reads operand rank qs f) :
    ReadsChain op? operand rank (ps ++ (k, sym) :: qs) head (tail ++ [(op, f)]) := by
  intro ts rest hts hrest
  obtain ⟨us, v, vs, rfl, hus, rfl, hvs⟩ := Token.exists_of_map_piece_append hts
  obtain ⟨ws, hlength, hhead, htail⟩ := h us (v :: (vs ++ rest)) hus hk
  refine ⟨ws ++ v :: vs, ?_, ?_, fun n => ?_⟩
  · simp only [List.length_append, List.length_cons, List.length_nil]
    omega
  · rw [List.append_assoc, List.append_assoc, List.cons_append]
    exact hhead
  · have hn : (tail ++ [(op, f)]).length + n = tail.length + (n + 1) := by
      simp only [List.length_append, List.length_cons, List.length_nil]
      omega
    rw [hn, List.append_assoc, List.cons_append, htail]
    calc ((tail ++ ·) <$> chain op? operand (n + 1)) (v :: (vs ++ rest))
        = ((tail ++ ·) <$> ((op, f) :: ·) <$> chain op? operand n) rest :=
          map_congr_run (chain_cons hop (hf vs rest hvs hrest) n) _
      _ = ((tail ++ [(op, f)] ++ ·) <$> chain op? operand n) rest := by simp

/-- A chain is read to its end where no further operator follows. -/
theorem ReadsChain.run (h : ReadsChain op? operand rank ps head tail) {ts rest : List Token}
    (hts : ts.map Token.piece = ps) (hrest : Closed rank rest)
    (hstop : ∀ t ∈ rest.head?, op? t.kind = none) :
    ∃ us, operand (ts ++ rest) = .ok (head, us) ∧
      Parser.chain op? operand us.length us = .ok (tail, rest) := by
  obtain ⟨us, hlength, hhead, htail⟩ := h ts rest hts hrest
  refine ⟨us ++ rest, hhead, ?_⟩
  have hn : (us ++ rest).length = tail.length + (us.length - tail.length + rest.length) := by
    rw [List.length_append]
    omega
  rw [hn, htail, map_run (chain_stop hstop _), List.append_nil]

end Chains

section Levels

variable {inner : Parser Formula} {ps : List Piece} {head : Formula}

/-- What a product of these factors is read as. -/
def productOf (head : Formula) (tail : List (Operator × Formula)) : Formula :=
  if tail.isEmpty then head else .bare (.arithmetic head tail)

theorem reads_product {tail : List (Operator × Formula)}
    (h : ReadsChain multiplier? (factor inner) 2 ps head tail) :
    Reads (product inner) 1 ps (productOf head tail) := by
  intro ts rest hts hrest
  obtain ⟨us, hhead, htail⟩ := h.run hts (hrest.mono (by omega)) hrest.multiplier?
  rw [product, bind_run hhead, bind_run remaining_run, bind_run htail]
  cases tail <;> rfl

theorem reads_sum {tail : List (Sign × Formula)}
    (h : ReadsChain sign? (product inner) 1 ps head tail) :
    Reads (sum inner) 0 ps (sumOf head tail) := by
  intro ts rest hts hrest
  obtain ⟨us, hhead, htail⟩ := h.run hts (hrest.mono (by omega)) hrest.sign?
  rw [sum, bind_run hhead, bind_run remaining_run, bind_run htail]
  rfl

/-- A formula that is read to the end of the text is the whole of it. -/
theorem whole_run {ts : List Token} {f : Formula} (h : Reads (formula (ts.length + 1)) 0
    (ts.map Token.piece) f) : whole.run' ts = .ok f := by
  have hf := h ts [] rfl rfl
  rw [List.append_nil] at hf
  have hwhole : whole ts = .ok (f, []) := by
    rw [whole, bind_run remaining_run, bind_run hf]
    rfl
  rw [StateT.run', hwhole]
  rfl

end Levels

end DiceNotation.Parser

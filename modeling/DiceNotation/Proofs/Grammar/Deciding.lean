import DiceNotation.Proofs.Grammar.Runs
import DiceNotation.Proofs.Token.Spacing

/-! Parsers that decide a language. On every text such a parser either reads a word of the language,
or it stops where the words of the language, as far as they agree with the text, have run out, and
says how they go on. Either way it looks no further than the token that it stops at. A rule for each
way of putting parsers together carries this from the parts to the whole. -/

namespace DiceNotation

open Token (Kind Piece Genuine)

/-- The kinds that a failure lists as what could have stood in the place of a token. -/
def Failure.Cause.expected : Failure.Cause → List Kind
  | .unexpected _ expected | .unreadable expected => expected
  | .trailing _ | .outOfRange => []

/-- Whether the cause is one to find at this piece, or at the end of the text if there is none. -/
def Failure.Cause.Blames : Failure.Cause → Option Piece → Prop
  | .unexpected found expected, p => found = p.map Prod.fst ∧ found ≠ some .error ∧ expected ≠ []
  | .unreadable expected, p => p.map Prod.fst = some .error ∧ expected ≠ []
  | .trailing found, p => p.map Prod.fst = some found
  | .outOfRange, p => ∃ text, p = some (.integer, text) ∧ Parser.integer? text = none

namespace Parser

/-- A parser for each depth of brackets and each number of turns that it has fuel for. -/
abbrev Family (α : Type) : Type :=
  Nat → Nat → Parser α

section Rules

variable {α β : Type}

/-- What a parser comes to at the rest of a text, if it reads `a` or finds a cause to fail there. -/
def verdict (v : Except Failure.Cause α) (rest : List Token) :
    Except (Failure.Cause × Option Token) (α × List Token) :=
  match v with
  | .ok a => .ok (a, rest)
  | .error cause => .error (cause, rest.head?)

/-- With fuel for all of the text, the parser takes these pieces and comes to the verdict at the next
one, whatever comes after that. -/
def Settles (p : Family α) (ps : List Piece) (next : Option Piece)
    (v : Except Failure.Cause α) : Prop :=
  ∀ n m us rest, us.map Token.piece = ps → rest.head?.map Token.piece = next →
    (us ++ rest).length ≤ n → (us ++ rest).length ≤ m → p n m (us ++ rest) = verdict v rest

/-- The language has a word that goes on from these pieces with a token of the kind. -/
def Reaches (L : α → List Piece → Prop) (ps : List Piece) (k : Kind) : Prop :=
  ∃ text ws a, Genuine ((k, text) :: ws) ∧ L a (ps ++ (k, text) :: ws)

/-- The language has a word that goes on from these pieces, or ends with them. -/
def Extends (L : α → List Piece → Prop) (ps : List Piece) : Prop :=
  ∃ ws a, Genuine ws ∧ L a (ps ++ ws)

inductive Decides (p : Family α) (L : α → List Piece → Prop) (xs : List Piece) : Prop
  | reads {a : α} {ps qs : List Piece} (hxs : xs = ps ++ qs) (hL : L a ps)
      (h : Settles p ps qs.head? (.ok a))
  | stops {cause : Failure.Cause} {ps qs : List Piece} (hxs : xs = ps ++ qs)
      (hcause : cause.Blames qs.head?) (hgo : Extends L ps)
      (hL : ∀ k ∈ cause.expected, Reaches L ps k)
      (h : Settles p ps qs.head? (.error cause))

variable {p q : Family α} {L M : α → List Piece → Prop} {xs : List Piece}

theorem Reaches.mono {ps : List Piece} {k : Kind} (h : Reaches L ps k)
    (hLM : ∀ a ps, L a ps → M a ps) : Reaches M ps k := by
  obtain ⟨text, ws, a, hws, hL⟩ := h
  exact ⟨text, ws, a, hws, hLM _ _ hL⟩

theorem Reaches.extends {ps : List Piece} {k : Kind} (h : Reaches L ps k) : Extends L ps := by
  obtain ⟨text, ws, a, hws, hL⟩ := h
  exact ⟨(k, text) :: ws, a, hws, hL⟩

theorem Extends.mono {ps : List Piece} (h : Extends L ps) (hLM : ∀ a ps, L a ps → M a ps) :
    Extends M ps := by
  obtain ⟨ws, a, hws, hL⟩ := h
  exact ⟨ws, a, hws, hLM _ _ hL⟩

theorem Decides.mono (h : Decides p L xs) (hLM : ∀ a ps, L a ps → M a ps) : Decides p M xs := by
  cases h with
  | reads hxs hL h => exact .reads hxs (hLM _ _ hL) h
  | stops hxs hcause hgo hL h =>
    exact .stops hxs hcause (hgo.mono hLM) (fun k hk => (hL k hk).mono hLM) h

theorem head?_append_pieces {us rest : List Token} {ps qs : List Piece}
    (hus : us.map Token.piece = ps) (hrest : rest.head?.map Token.piece = qs.head?) :
    (us ++ rest).head?.map Token.piece = (ps ++ qs).head? := by
  subst hus
  cases us with
  | nil => exact hrest
  | cons u us => rfl

theorem Decides.congr (h : Decides q L xs)
    (hpq : ∀ n m ts, ts.head?.map Token.piece = xs.head? → ts.length ≤ n → ts.length ≤ m →
      ∃ n' m', ts.length ≤ n' ∧ ts.length ≤ m' ∧ p n m ts = q n' m' ts) : Decides p L xs := by
  have hsettles {ps qs : List Piece} {v : Except Failure.Cause α} (hxs : xs = ps ++ qs)
      (h : Settles q ps qs.head? v) : Settles p ps qs.head? v := by
    intro n m us rest hus hrest hn hm
    obtain ⟨n', m', hn', hm', heq⟩ :=
      hpq n m (us ++ rest) (hxs ▸ head?_append_pieces hus hrest) hn hm
    rw [heq, h n' m' us rest hus hrest hn' hm']
  cases h with
  | reads hxs hL h => exact .reads hxs hL (hsettles hxs h)
  | stops hxs hcause hgo hL h => exact .stops hxs hcause hgo hL (hsettles hxs h)

/-- The first piece is taken, and another parser goes on. -/
theorem Decides.next {k : Kind} {text : List Char} {ys : List Piece} {q : Family α}
    (h : Decides q (fun a ps => L a ((k, text) :: ps)) ys)
    (hpq : ∀ n m t ts, t.kind = k → t.text = text → ts.length + 1 ≤ n → ts.length + 1 ≤ m →
      ∃ n' m', ts.length ≤ n' ∧ ts.length ≤ m' ∧ p n m (t :: ts) = q n' m' ts) :
    Decides p L ((k, text) :: ys) := by
  have hsettles {ps qs : List Piece} {v : Except Failure.Cause α} (h : Settles q ps qs.head? v) :
      Settles p ((k, text) :: ps) qs.head? v := by
    intro n m us rest hus hrest hn hm
    obtain ⟨t, us, rfl, hk, htext, hus⟩ := Token.exists_of_map_piece_cons hus
    obtain ⟨n', m', hn', hm', heq⟩ := hpq n m t (us ++ rest) hk htext hn hm
    rw [List.cons_append, heq, h n' m' us rest hus hrest hn' hm']
  cases h with
  | reads hys hL h => exact .reads (by rw [hys, List.cons_append]) hL (hsettles h)
  | stops hys hcause hgo hL h =>
    refine .stops (by rw [hys, List.cons_append]) hcause ?_ (fun k' hk' => ?_) (hsettles h)
    · exact hgo
    · exact hL k' hk'

theorem forall_head?_kind {P : Kind → Prop} (h : ∀ p ∈ xs.head?, P p.1) {ts : List Token}
    (hts : ts.head?.map Token.piece = xs.head?) : ∀ t ∈ ts.head?, P t.kind := by
  intro t ht
  rw [ht] at hts
  exact h _ hts.symm

theorem map_kind_head? {ts : List Token} (hts : ts.head?.map Token.piece = xs.head?) :
    ts.head?.map Token.kind = xs.head?.map Prod.fst := by
  rw [← hts, Option.map_map]
  rfl

section Heads

variable {k : Kind} {text : List Char} {ys : List Piece}

theorem exists_cons_of_head? (h : xs.head?.map Prod.fst = some k) :
    ∃ text ys, xs = (k, text) :: ys := by
  obtain ⟨p, hp, rfl⟩ := Option.map_eq_some_iff.mp h
  obtain ⟨ys, rfl⟩ := List.head?_eq_some_iff.mp hp
  exact ⟨p.2, ys, rfl⟩

theorem exists_of_head? {ts : List Token} (h : ts.head?.map Token.piece = some (k, text)) :
    ∃ t us, ts = t :: us ∧ t.kind = k ∧ t.text = text := by
  obtain ⟨t, ht, hpiece⟩ := Option.map_eq_some_iff.mp h
  obtain ⟨us, rfl⟩ := List.head?_eq_some_iff.mp ht
  exact ⟨t, us, rfl, congrArg Prod.fst hpiece, congrArg Prod.snd hpiece⟩

theorem Decides.head (h : Decides q L ((k, text) :: ys))
    (hpq : ∀ n m t ts, t.kind = k → t.text = text → p n m (t :: ts) = q n m (t :: ts)) :
    Decides p L ((k, text) :: ys) :=
  h.congr fun n m ts hts hn hm => by
    obtain ⟨t, us, rfl, hk, htext⟩ := exists_of_head? hts
    exact ⟨n, m, hn, hm, hpq n m t us hk htext⟩

theorem Decides.skip (h : Decides q (fun a ps => L a ((k, text) :: ps)) ys)
    (hpq : ∀ n m t ts, t.kind = k → t.text = text → p n m (t :: ts) = q n m ts) :
    Decides p L ((k, text) :: ys) :=
  h.next fun n m t ts hk htext hn hm =>
    ⟨n, m, Nat.le_of_succ_le hn, Nat.le_of_succ_le hm, hpq n m t ts hk htext⟩

/-- Taking the first piece costs a turn. -/
theorem Decides.turn (h : Decides q (fun a ps => L a ((k, text) :: ps)) ys)
    (hpq : ∀ n m t ts, t.kind = k → t.text = text → p n (m + 1) (t :: ts) = q n m ts) :
    Decides p L ((k, text) :: ys) := by
  refine h.next fun n m t ts hk htext hn hm => ?_
  cases m with
  | zero => omega
  | succ m =>
    exact ⟨n, m, Nat.le_of_succ_le hn, Nat.le_of_succ_le_succ hm, hpq n m t ts hk htext⟩

/-- The first piece is a bracket, and what goes on is inside of it. -/
theorem Decides.descend (h : Decides q (fun a ps => L a ((k, text) :: ps)) ys)
    (hpq : ∀ n m t ts, t.kind = k → t.text = text → p (n + 1) m (t :: ts) = q n m ts) :
    Decides p L ((k, text) :: ys) := by
  refine h.next fun n m t ts hk htext hn hm => ?_
  cases n with
  | zero => omega
  | succ n =>
    exact ⟨n, m, Nat.le_of_succ_le_succ hn, Nat.le_of_succ_le hm, hpq n m t ts hk htext⟩

end Heads

theorem Decides.done {a : α} (hL : L a [])
    (h : ∀ n m ts, ts.head?.map Token.piece = xs.head? → p n m ts = .ok (a, ts)) :
    Decides p L xs := by
  refine .reads (List.nil_append xs).symm hL fun n m us rest hus hrest _ _ => ?_
  obtain rfl := List.map_eq_nil_iff.mp hus
  exact h n m rest hrest

theorem Decides.fail (cause : Failure.Cause) (hcause : cause.Blames xs.head?) (hgo : Extends L [])
    (hL : ∀ k ∈ cause.expected, Reaches L [] k)
    (h : ∀ n m ts, ts.head?.map Token.piece = xs.head? → p n m ts = .error (cause, ts.head?)) :
    Decides p L xs := by
  refine .stops (List.nil_append xs).symm hcause hgo hL fun n m us rest hus hrest _ _ => ?_
  obtain rfl := List.map_eq_nil_iff.mp hus
  exact h n m rest hrest

/-- A parser and another that goes on from what it has read. -/
theorem Decides.bind {N : β → List Piece → Prop} {f : α → Family β} (hp : Decides p L xs)
    (hf : ∀ a ps qs, xs = ps ++ qs → L a ps → Settles p ps qs.head? (.ok a) →
      Decides (f a) (fun b ws => N b (ps ++ ws)) qs)
    (hfinish : ∀ a ps, L a ps → Extends N ps) :
    Decides (fun n m => p n m >>= fun a => f a n m) N xs := by
  cases hp with
  | @reads a ps qs hxs hL hread =>
    have hsettles {ws rs : List Piece} {v : Except Failure.Cause β} (hqs : qs = ws ++ rs)
        (h : Settles (f a) ws rs.head? v) :
        Settles (fun n m => p n m >>= fun a => f a n m) (ps ++ ws) rs.head? v := by
      intro n m us rest hus hrest hn hm
      obtain ⟨us, vs, rfl, hus, hvs⟩ := List.map_eq_append_iff.mp hus
      rw [List.append_assoc] at hn hm ⊢
      have hhead : (vs ++ rest).head?.map Token.piece = qs.head? :=
        hqs ▸ head?_append_pieces hvs hrest
      have hle : (vs ++ rest).length ≤ (us ++ (vs ++ rest)).length := by simp
      dsimp only
      rw [bind_run (hread n m us (vs ++ rest) hus hhead hn hm)]
      exact h n m vs rest hvs hrest (hle.trans hn) (hle.trans hm)
    cases hf a ps qs hxs hL hread with
    | reads hqs hN h =>
      exact .reads (by rw [hxs, hqs, List.append_assoc]) hN (hsettles hqs h)
    | stops hqs hcause hgo hN h =>
      refine .stops (by rw [hxs, hqs, List.append_assoc]) hcause ?_ (fun k hk => ?_) (hsettles hqs h)
      · obtain ⟨ws, b, hws, hN⟩ := hgo
        exact ⟨ws, b, hws, by rwa [List.append_assoc]⟩
      · obtain ⟨text, ws, b, hws, hN⟩ := hN k hk
        exact ⟨text, ws, b, hws, by rwa [List.append_assoc]⟩
  | @stops cause ps qs hxs hcause hgo hL hstop =>
    refine .stops hxs hcause ?_ (fun k hk => ?_) fun n m us rest hus hrest hn hm => ?_
    · obtain ⟨ws, a, hws, hL⟩ := hgo
      obtain ⟨vs, b, hvs, hN⟩ := hfinish a _ hL
      exact ⟨ws ++ vs, b, List.forall_mem_append.mpr ⟨hws, hvs⟩, by rwa [← List.append_assoc]⟩
    · obtain ⟨text, ws, a, hws, hL⟩ := hL k hk
      obtain ⟨vs, b, hvs, hN⟩ := hfinish a _ hL
      rw [List.append_assoc, List.cons_append] at hN
      exact ⟨text, ws ++ vs, b, List.forall_mem_append.mpr ⟨hws, hvs⟩, hN⟩
    · show p n m (us ++ rest) >>= _ = _
      rw [hstop n m us rest hus hrest hn hm]
      rfl

theorem Decides.map {N : β → List Piece → Prop} {g : α → β} (hp : Decides p L xs)
    (hL : ∀ a ps, L a ps → N (g a) ps) : Decides (fun n m => g <$> p n m) N xs := by
  simp only [map_eq_pure_bind]
  refine hp.bind (f := fun a _ _ => pure (g a)) (fun a ps qs _ ha _ => ?_) fun a ps ha => ?_
  · exact .done (by rw [List.append_nil]; exact hL a ps ha) fun _ _ _ _ => rfl
  · exact ⟨[], g a, List.forall_mem_nil _, by rw [List.append_nil]; exact hL a ps ha⟩

/-- What failing where certain kinds were due comes to at a piece. -/
def dueAt (expected : List Kind) : Option Piece → Failure.Cause
  | none => .unexpected none expected
  | some (k, _) => if k = .error then .unreadable expected else .unexpected (some k) expected

theorem unexpected_run (expected : List Kind) (ts : List Token) :
    (unexpected expected : Parser α) ts =
      .error (dueAt expected (ts.head?.map Token.piece), ts.head?) := by
  cases ts with
  | nil => rfl
  | cons t ts =>
    show (if t.kind = .error then fail (.unreadable expected) (some t)
      else fail (.unexpected (some t.kind) expected) (some t) : Parser α) (t :: ts) = _
    by_cases hk : t.kind = .error <;> simp [hk, dueAt, Token.piece, fail] <;> rfl

theorem Decides.unexpected {expected : List Kind} (hne : expected ≠ [])
    (hL : ∀ k ∈ expected, Reaches L [] k)
    (h : ∀ n m ts, ts.head?.map Token.piece = xs.head? → p n m ts = Parser.unexpected expected ts) :
    Decides p L xs := by
  have hdue (next : Option Piece) :
      (dueAt expected next).Blames next ∧ (dueAt expected next).expected = expected := by
    unfold dueAt
    split
    · exact ⟨⟨rfl, nofun, hne⟩, rfl⟩
    · split
      · exact ⟨⟨by simp [*], hne⟩, rfl⟩
      · exact ⟨⟨rfl, by simpa, hne⟩, rfl⟩
  obtain ⟨hblames, hexpected⟩ := hdue xs.head?
  obtain ⟨k, hk⟩ := List.exists_mem_of_ne_nil expected hne
  refine .fail _ hblames (hL k hk).extends (fun k hk => hL k (hexpected ▸ hk)) fun n m ts hts => ?_
  rw [h n m ts hts, unexpected_run, hts]

theorem take_bind_run_ne {k : Kind} {ts : List Token} (h : ∀ t ∈ ts.head?, t.kind ≠ k)
    (f : Token → Parser α) : (Parser.take k >>= f) ts = Parser.unexpected [k] ts := by
  have htake : Parser.take k ts = Parser.unexpected [k] ts := by
    cases ts with
    | nil => rfl
    | cons t ts =>
      show (if t.kind = k then set ts >>= fun _ => pure t else Parser.unexpected [k] :
        Parser Token) (t :: ts) = _
      rw [if_neg (h t rfl)]
  show Parser.take k ts >>= _ = _
  rw [htake, unexpected_run, unexpected_run]
  rfl

/-- A token of one kind comes next, or there is a failure. With the token there is fuel to spare. -/
theorem Decides.enter {k : Kind} {f : Family α} (hL : Reaches L [] k)
    (hf : ∀ text ys, xs = (k, text) :: ys →
      Decides (fun n m => f (n + 1) m) (fun a ps => L a ((k, text) :: ps)) ys) :
    Decides (fun n m => Parser.take k >>= fun _ => f n m) L xs := by
  by_cases hk : xs.head?.map Prod.fst = some k
  · obtain ⟨text, ys, rfl⟩ := exists_cons_of_head? hk
    exact (hf text ys rfl).descend fun n m t ts hkind _ => bind_run (take_run hkind) _
  · refine .unexpected (List.cons_ne_nil k []) (by simpa using hL) fun n m ts hts => ?_
    refine take_bind_run_ne (fun t ht hkind => hk ?_) _
    rw [← map_kind_head? hts, ht, ← hkind]
    rfl

theorem Decides.shift (h : Decides p L xs) : Decides (fun n m => p (n + 1) m) L xs :=
  h.congr fun n m _ _ hn hm => ⟨n + 1, m, Nat.le_succ_of_le hn, hm, rfl⟩

theorem Decides.take {k : Kind} {f : Family α} (hL : Reaches L [] k)
    (hf : ∀ text ys, xs = (k, text) :: ys → Decides f (fun a ps => L a ((k, text) :: ps)) ys) :
    Decides (fun n m => Parser.take k >>= fun _ => f n m) L xs :=
  .enter hL fun text ys hxs => (hf text ys hxs).shift

end Rules

end Parser

end DiceNotation

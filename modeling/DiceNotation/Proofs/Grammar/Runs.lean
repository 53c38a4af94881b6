import DiceNotation.Grammar.Formula

/-! What the parsers of single tokens do, how a run goes on after its first step, and what the
parsers of values and terms come down to once the kind of the next token is known. -/

namespace DiceNotation.Parser

open Token (Kind)

section Runs

variable {α β : Type} {ts rest : List Token}

theorem bind_run {p : Parser α} {a : α} (h : p ts = .ok (a, rest)) (f : α → Parser β) :
    (p >>= f) ts = f a rest := by
  show p ts >>= (fun r => f r.1 r.2) = f a rest
  rw [h]
  rfl

theorem map_run {p : Parser α} {a : α} (h : p ts = .ok (a, rest)) (f : α → β) :
    (f <$> p) ts = .ok (f a, rest) := by
  rw [map_eq_pure_bind, bind_run h]
  rfl

theorem map_congr_run {p q : Parser α} (h : p ts = q rest) (f : α → β) :
    (f <$> p) ts = (f <$> q) rest := by
  show p ts >>= (fun r => pure (f r.1, r.2)) = q rest >>= fun r => pure (f r.1, r.2)
  rw [h]

theorem bind_congr_run {p q : Parser α} (h : p ts = q rest) (f : α → Parser β) :
    (p >>= f) ts = (q >>= f) rest := by
  show p ts >>= (fun r => f r.1 r.2) = q rest >>= fun r => f r.1 r.2
  rw [h]

theorem exists_of_bind_ok {p : Parser α} {f : α → Parser β} {b : β}
    (h : (p >>= f) ts = .ok (b, rest)) : ∃ a us, p ts = .ok (a, us) ∧ f a us = .ok (b, rest) := by
  have h' : p ts >>= (fun r => f r.1 r.2) = .ok (b, rest) := h
  cases hp : p ts with
  | error e =>
    rw [hp] at h'
    cases h'
  | ok r =>
    rw [hp] at h'
    exact ⟨r.1, r.2, rfl, h'⟩

theorem exists_of_map_ok {p : Parser α} {g : α → β} {b : β} (h : (g <$> p) ts = .ok (b, rest)) :
    ∃ a, p ts = .ok (a, rest) ∧ g a = b := by
  rw [map_eq_pure_bind] at h
  obtain ⟨a, us, hp, hg⟩ := exists_of_bind_ok h
  cases hg
  exact ⟨a, hp, rfl⟩

theorem get_run : (get : Parser (List Token)) ts = .ok (ts, ts) :=
  rfl

theorem peek_run : peek ts = .ok (ts.head?.map Token.kind, ts) :=
  rfl

theorem peek_cons {t : Token} {k : Kind} (h : t.kind = k) :
    peek (t :: ts) = .ok (some k, t :: ts) := by
  rw [← h]
  rfl

theorem skip_run (t : Token) : skip (t :: ts) = .ok ((), ts) :=
  rfl

theorem remaining_run : remaining ts = .ok (ts.length, ts) :=
  rfl

theorem take_run {t : Token} {k : Kind} (h : t.kind = k) : take k (t :: ts) = .ok (t, ts) := by
  show (if t.kind = k then set ts >>= fun _ => pure t else unexpected [k] : Parser Token) (t :: ts) =
    .ok (t, ts)
  rw [if_pos h]
  rfl

theorem choose_run_some {f : Kind → Option α} {t : Token} {a : α} (h : f t.kind = some a) :
    choose f (t :: ts) = .ok (some a, ts) := by
  rw [choose, bind_run get_run]
  dsimp only
  rw [h]
  rfl

theorem choose_run_none {f : Kind → Option α} (h : ∀ t ∈ ts.head?, f t.kind = none) :
    choose f ts = .ok (none, ts) := by
  cases ts with
  | nil => rfl
  | cons t ts =>
    rw [choose, bind_run get_run]
    dsimp only
    rw [h t rfl]
    rfl

theorem choose_cons_none {f : Kind → Option α} {t : Token} (h : f t.kind = none) :
    choose f (t :: ts) = .ok (none, t :: ts) :=
  choose_run_none (by simpa using h)

theorem literal_run {t : Token} {i : Int64} (hk : t.kind = .integer)
    (h : integer? t.text = some i) : literal (t :: ts) = .ok (.int i, ts) := by
  rw [literal, bind_run get_run]
  dsimp only
  rw [if_pos hk, h]
  rfl

theorem literal_run_decimal {t : Token} (hk : t.kind = .decimal) :
    literal (t :: ts) = .ok (.number (.float (decimal t.text)), ts) := by
  obtain ⟨k, start, stop, text⟩ := t
  cases hk
  rfl

end Runs

def startsValue (k : Kind) : Bool :=
  isLiteral k || k == .leftParen

/-- A number or a formula in parentheses. -/
def value (inner : Parser Formula) : Parser Formula := do
  if (← peek) = some .leftParen then parenthesized inner else literal

section Values

variable {inner : Parser Formula} {t : Token} {ts : List Token}

theorem value?_run_some (h : startsValue t.kind = true) :
    value? inner (t :: ts) = (some <$> value inner) (t :: ts) := by
  obtain ⟨k, start, stop, text⟩ := t
  cases k <;> first | rfl | cases h

theorem value?_run_none (h : ∀ t ∈ ts.head?, startsValue t.kind = false) :
    value? inner ts = .ok (none, ts) := by
  cases ts with
  | nil => rfl
  | cons t ts =>
    have hk := h t rfl
    obtain ⟨k, start, stop, text⟩ := t
    cases k <;> first | rfl | cases hk

theorem faces_run_value (h : startsValue t.kind = true) :
    faces inner (t :: ts) = (Faces.sides <$> value inner) (t :: ts) := by
  obtain ⟨k, start, stop, text⟩ := t
  cases k <;> first | rfl | cases h

theorem unlabeled_run_value (h : startsValue t.kind = true) :
    unlabeled inner (t :: ts) = (value inner >>= countOrValue inner) (t :: ts) := by
  obtain ⟨k, start, stop, text⟩ := t
  cases k <;> first | rfl | cases h

theorem faces_run_percent (h : t.kind = .percent) :
    faces inner (t :: ts) = .ok (.sides (.int 100), ts) := by
  rw [faces, bind_run (peek_cons h)]
  rfl

theorem faces_run_fate (h : t.kind = .fate) : faces inner (t :: ts) = .ok (.fate, ts) := by
  rw [faces, bind_run (peek_cons h)]
  rfl

end Values

/-- A condition after its comparator. -/
def comparison (inner : Parser Formula) (relation : Relation) : Parser (Target Formula) := do
  return ⟨relation, ← signedValue inner ((← remaining) + 1)⟩

/-- A condition with a comparator, if one comes next. -/
def filter? (inner : Parser Formula) : Parser (Option (Target Formula)) := do
  if (← peek).any Kind.isComparator then some <$> target inner else pure none

section Conditions

variable {inner : Parser Formula} {t : Token} {ts : List Token} {n : Nat} {r : Relation}

theorem signedValue_run_minus (h : t.kind = .minus) :
    signedValue inner (n + 1) (t :: ts) = (negate <$> signedValue inner n) ts := by
  rw [signedValue, bind_run (peek_cons h), if_pos rfl, bind_run (skip_run t)]

theorem signedValue_run_value (h : startsValue t.kind = true) :
    signedValue inner (n + 1) (t :: ts) = value inner (t :: ts) := by
  have hminus : some t.kind ≠ some Kind.minus := by
    intro heq
    rw [Option.some.inj heq] at h
    cases h
  rw [signedValue, bind_run (peek_cons rfl), if_neg hminus,
    bind_congr_run (value?_run_some h), bind_map_left]
  exact congrFun (bind_pure _) _

theorem isComparator_iff (k : Kind) : k.isComparator = (relation? k).isSome := by
  cases k <;> rfl

theorem target_run_comparison (h : relation? t.kind = some r) :
    target inner (t :: ts) = comparison inner r ts := by
  rw [target, bind_run (choose_run_some h)]
  rfl

theorem target_run_none (h : ∀ t ∈ ts.head?, relation? t.kind = none) :
    target inner ts = comparison inner .equal ts := by
  rw [target, bind_run (choose_run_none h)]
  rfl

theorem target?_run_comparison (h : relation? t.kind = some r) :
    target? inner (t :: ts) = (some <$> comparison inner r) ts := by
  have hstarts : startsTarget t.kind = true := by
    rw [startsTarget, isComparator_iff, h]
    rfl
  rw [target?, bind_run (peek_cons rfl), Option.any_some, if_pos hstarts,
    map_congr_run (target_run_comparison h)]

theorem target?_run_value (h : startsValue t.kind = true) :
    target? inner (t :: ts) = ((fun f => some ⟨.equal, f⟩) <$> value inner) (t :: ts) := by
  have hrelation : relation? t.kind = none := by
    obtain ⟨k, start, stop, text⟩ := t
    cases k <;> first | rfl | cases h
  have hstarts : startsTarget t.kind = true := by
    rw [startsTarget, Bool.or_assoc]
    exact Bool.or_eq_true_iff.mpr (.inr h)
  have htarget : target inner (t :: ts) = ((fun f => ⟨.equal, f⟩) <$> value inner) (t :: ts) := by
    rw [target_run_none (by simpa using hrelation), comparison, bind_run remaining_run,
      map_eq_pure_bind, bind_congr_run (signedValue_run_value h)]
  rw [target?, bind_run (peek_cons rfl), Option.any_some, if_pos hstarts, map_congr_run htarget,
    Functor.map_map]

theorem target?_run_none (h : ∀ t ∈ ts.head?, startsTarget t.kind = false) :
    target? inner ts = .ok (none, ts) := by
  have hnone : (ts.head?.map Token.kind).any startsTarget = false := by
    rw [Option.any_map]
    cases ts with
    | nil => rfl
    | cons t ts => exact h t rfl
  rw [target?, bind_run peek_run, if_neg (by rw [hnone]; exact Bool.false_ne_true)]
  rfl

theorem filter?_run_comparison (h : relation? t.kind = some r) :
    filter? inner (t :: ts) = (some <$> comparison inner r) ts := by
  have hcomparator : t.kind.isComparator = true := by
    rw [isComparator_iff, h]
    rfl
  rw [filter?, bind_run (peek_cons rfl), Option.any_some, if_pos hcomparator,
    map_congr_run (target_run_comparison h)]

theorem filter?_run_none (h : ∀ t ∈ ts.head?, relation? t.kind = none) :
    filter? inner ts = .ok (none, ts) := by
  have hnone : (ts.head?.map Token.kind).any Kind.isComparator = false := by
    rw [Option.any_map]
    cases ts with
    | nil => rfl
    | cons t ts => simp [isComparator_iff, h t rfl]
  rw [filter?, bind_run peek_run, if_neg (by rw [hnone]; exact Bool.false_ne_true)]
  rfl

theorem matching_eq (counted : Bool) :
    matching inner counted = (fun f => f.getD (.int 2)) <$> value? inner >>= fun least =>
      (fun t => ⟨least, counted, t⟩) <$> filter? inner := by
  simp only [matching, filter?, bind_map_left, map_bind]
  congr 1
  funext least
  congr 1
  funext k
  split <;> simp

end Conditions

section Terms

variable {inner : Parser Formula} {t : Token} {ts : List Token}

theorem unlabeled_run_dice (h : t.kind = .dice) :
    unlabeled inner (t :: ts) = dice inner (.int 1) (t :: ts) := by
  rw [unlabeled, bind_run (peek_cons h)]

theorem unlabeled_run_group (h : t.kind = .leftBrace) :
    unlabeled inner (t :: ts) = group inner (t :: ts) := by
  rw [unlabeled, bind_run (peek_cons h)]

theorem unlabeled_run_inline (h : t.kind = .inlineOpen) :
    unlabeled inner (t :: ts) = inline inner (t :: ts) := by
  rw [unlabeled, bind_run (peek_cons h)]

theorem unlabeled_run_replacement (h : t.kind = .replacement) :
    unlabeled inner (t :: ts) = ((fun f => Formula.bare
      (.replacement (String.ofList (t.text.drop 1)) f)) <$> parenthesized inner) ts := by
  rw [unlabeled, bind_run (peek_cons h)]
  dsimp only
  rw [bind_run (take_run h), map_eq_pure_bind]

theorem unlabeled_run_function {f : NumericFunction} (h : function? t.kind = some f) :
    unlabeled inner (t :: ts) =
      ((fun g => Formula.bare (.function f g)) <$> parenthesized inner) ts := by
  have hchoose : choose function? (t :: ts) = .ok (some f, ts) := choose_run_some h
  obtain ⟨k, start, stop, text⟩ := t
  rw [unlabeled, bind_run (peek_cons rfl), map_eq_pure_bind]
  cases k <;> cases h
  all_goals
    dsimp only
    rw [bind_run hchoose]

theorem labels_run_label {n : Nat} {f : Formula} (h : t.kind = .label) :
    labels (n + 1) f (t :: ts) = labels n (addLabel f (labelText t.text)) ts := by
  show (if t.kind = .label then (set ts >>= fun _ => labels n (addLabel f (labelText t.text)))
    else pure f : Parser Formula) (t :: ts) = _
  rw [if_pos h]
  rfl

theorem labels_run_none (h : ∀ t ∈ ts.head?, t.kind ≠ .label) (n : Nat) (f : Formula) :
    labels n f ts = .ok (f, ts) := by
  cases n with
  | zero => rfl
  | succ n =>
    cases ts with
    | nil => rfl
    | cons t ts =>
      show (if t.kind = .label then (set ts >>= fun _ => labels n (addLabel f (labelText t.text)))
        else pure f : Parser Formula) (t :: ts) = _
      rw [if_neg (h t rfl)]
      rfl

end Terms

end DiceNotation.Parser

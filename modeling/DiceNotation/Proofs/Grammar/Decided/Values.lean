import DiceNotation.Proofs.Grammar.Deciding
import DiceNotation.Proofs.Grammar.Notation

/-! Values and conditions are decided. What their parsers read the grammar derives, and where one of
them fails the grammar has a construct that goes on with each of the kinds that were due. -/

namespace DiceNotation

open Token (Kind Piece Genuine)

namespace Parser

/-- The number one, which can stand wherever a formula can. -/
def one : List Piece :=
  [(.integer, ['1'])]

def parensOne : List Piece :=
  (.leftParen, ['(']) :: one ++ [(.rightParen, [')'])]

theorem genuine_one : Genuine one :=
  List.forall_mem_singleton.mpr ⟨List.cons_ne_nil _ _, List.forall_mem_singleton.mpr rfl⟩

theorem genuine_cons {k : Kind} {text : List Char} {ps : List Piece} (h : k.Matches text)
    (hps : Genuine ps) : Genuine ((k, text) :: ps) :=
  List.forall_mem_cons.mpr ⟨h, hps⟩

theorem genuine_append {ps qs : List Piece} (hps : Genuine ps) (hqs : Genuine qs) :
    Genuine (ps ++ qs) :=
  List.forall_mem_append.mpr ⟨hps, hqs⟩

theorem genuine_nil : Genuine [] :=
  List.forall_mem_nil _

theorem genuine_parensOne : Genuine parensOne :=
  genuine_cons rfl (genuine_append genuine_one (genuine_cons rfl genuine_nil))

theorem grammar_one : Grammar (.value (.int 1)) one :=
  .integer rfl

theorem grammar_sum {f : Formula} {ps : List Piece} (h : Grammar (.value f) ps) :
    Grammar (.sum f []) ps :=
  .summand (.factor (.unsigned (Grammar.unlabeled (.plain h))))

theorem grammar_parensOne : Grammar (.parens (.int 1)) parensOne :=
  .parens (grammar_sum grammar_one)

theorem reaches_value {k : Kind} (h : startsValue k = true) :
    Reaches (fun f => Grammar (.value f)) [] k := by
  cases k with
  | integer => exact ⟨_, _, _, genuine_one, grammar_one⟩
  | decimal =>
    have hdecimal : Kind.decimal.Matches ['.', '1'] :=
      ⟨[], ['1'], rfl, List.cons_ne_nil _ _, List.forall_mem_singleton.mpr rfl⟩
    exact ⟨_, [], _, genuine_cons hdecimal genuine_nil, .decimal _⟩
  | leftParen => exact ⟨_, _, _, genuine_parensOne, .enclosed grammar_parensOne⟩
  | _ => cases h

theorem exists_cons_of_not_forall {P : Piece → Prop} {xs : List Piece}
    (h : ¬∀ p ∈ xs.head?, P p) : ∃ p ys, xs = p :: ys ∧ ¬P p := by
  cases xs with
  | nil => exact absurd (fun p hp => by simp at hp) h
  | cons p ys => exact ⟨p, ys, rfl, by simpa using h⟩

/-- Formulas as they stand in brackets. -/
def Whole (f : Formula) (ps : List Piece) : Prop :=
  ∃ head tail, Grammar (.sum head tail) ps ∧ sumOf head tail = f

/-- The formulas inside of brackets. -/
def nested : Family Formula :=
  fun n _ => formula (n + 1)

/-- The texts of fewer pieces are decided. -/
def DecidedBelow (length : Nat) : Prop :=
  ∀ ys : List Piece, ys.length < length → Decides nested Whole ys

theorem DecidedBelow.mono {m n : Nat} (h : DecidedBelow n) (hle : m ≤ n) : DecidedBelow m :=
  fun ys hys => h ys (Nat.lt_of_lt_of_le hys hle)

theorem length_le_of_append {xs ps qs : List Piece} (h : xs = ps ++ qs) : qs.length ≤ xs.length :=
  h ▸ (List.suffix_append ps qs).length_le

section Values

variable {xs : List Piece}

theorem Whole.parens {f : Formula} {ps : List Piece} {l : List Char} (h : Whole f ps)
    (r : List Char) : Grammar (.parens f) ((.leftParen, l) :: (ps ++ [(.rightParen, r)])) := by
  obtain ⟨head, tail, h, rfl⟩ := h
  exact .parens h

theorem decides_parens (hI : DecidedBelow xs.length) :
    Decides (fun n _ => parenthesized (formula n)) (fun f => Grammar (.parens f)) xs := by
  refine .enter (f := fun n _ => formula n >>= fun f => take .rightParen >>= fun _ => pure f)
    ⟨_, _, _, genuine_parensOne, grammar_parensOne⟩ fun l ys hxs => ?_
  have hright : Genuine [(.rightParen, [')'])] := genuine_cons rfl genuine_nil
  refine (hI ys (by simp [hxs])).bind (fun f ps qs _ hf _ => ?_) fun f ps hf => ?_
  · refine .take ⟨_, _, _, hright, hf.parens _⟩ fun r zs _ => ?_
    exact .done (hf.parens r) fun _ _ _ _ => rfl
  · exact ⟨_, _, hright, hf.parens _⟩

theorem literal_run_outOfRange {t : Token} {ts : List Token} (hk : t.kind = .integer)
    (h : integer? t.text = none) : literal (t :: ts) = .error (.outOfRange, some t) := by
  rw [literal, bind_run get_run]
  dsimp only
  rw [if_pos hk, h]
  rfl

theorem value_run_literal {n : Nat} {t : Token} (ts : List Token) (ht : t.kind ≠ .leftParen) :
    value (formula n) (t :: ts) = literal (t :: ts) := by
  rw [value, bind_run (peek_cons rfl), if_neg (by simpa using ht)]

theorem decides_value {k : Kind} {ys : List Piece} (text : List Char)
    (hI : DecidedBelow (ys.length + 1)) (hk : startsValue k = true) :
    Decides (fun n _ => value (formula n)) (fun f => Grammar (.value f)) ((k, text) :: ys) := by
  cases k with
  | integer =>
    cases hi : integer? text with
    | some i =>
      refine .skip (q := fun _ _ => pure (.int i)) (.done (.integer hi) fun _ _ _ _ => rfl) ?_
      intro n m t ts ht htext
      rw [value_run_literal ts (by simp [ht]), literal_run ht (htext ▸ hi)]
      rfl
    | none =>
      have hone : Extends (fun f => Grammar (.value f)) [] := ⟨one, _, genuine_one, grammar_one⟩
      refine .fail .outOfRange ⟨text, rfl, hi⟩ hone nofun fun n m ts hts => ?_
      obtain ⟨t, us, rfl, ht, htext⟩ := exists_of_head? hts
      rw [value_run_literal us (by simp [ht]), literal_run_outOfRange ht (htext ▸ hi)]
      rfl
  | decimal =>
    refine .skip (q := fun _ _ => pure (.number (.float (decimal text))))
      (.done (.decimal text) fun _ _ _ _ => rfl) ?_
    intro n m t ts ht htext
    rw [value_run_literal ts (by simp [ht]), literal_run_decimal ht, htext]
    rfl
  | leftParen =>
    have hparens : Decides (fun n _ => parenthesized (formula n)) (fun f => Grammar (.parens f))
        ((.leftParen, text) :: ys) := decides_parens hI
    refine (hparens.mono fun _ _ h => .enclosed h).head fun n m t ts ht _ => ?_
    rw [value, bind_run (peek_cons ht), if_pos rfl]
  | _ => cases hk

theorem decides_count (hI : DecidedBelow xs.length) (default : Formula) :
    Decides (fun n _ => (·.getD default) <$> value? (formula n))
      (fun f => Grammar (.count default f)) xs := by
  by_cases hxs : ∀ p ∈ xs.head?, startsValue p.1 = false
  · exact .done (.default default) fun n m ts hts =>
      map_run (value?_run_none (forall_head?_kind (P := (startsValue · = false)) hxs hts)) _
  · obtain ⟨⟨k, text⟩, ys, rfl, hk⟩ := exists_cons_of_not_forall hxs
    replace hk : startsValue k = true := by simpa using hk
    refine ((decides_value _ hI hk).mono fun _ _ h => .count h).head fun n m t ts ht _ => ?_
    subst ht
    rw [map_congr_run (value?_run_some hk), Functor.map_map]
    exact congrFun (id_map _) _

theorem reaches_signedValue {k : Kind} (h : startsValue k = true ∨ k = .minus) :
    Reaches (fun f => Grammar (.signedValue f)) [] k := by
  rcases h with h | rfl
  · exact (reaches_value h).mono fun _ _ h => .unsignedValue h
  · have hminus : Kind.minus.Matches ['-'] := rfl
    exact ⟨_, _, _, genuine_cons hminus genuine_one, .negate (.unsignedValue grammar_one)⟩

theorem signedValue_run_none {inner : Parser Formula} {n : Nat} {ts : List Token}
    (h : ∀ t ∈ ts.head?, startsValue t.kind = false ∧ t.kind ≠ .minus) :
    signedValue inner (n + 1) ts = unexpected [.integer, .decimal, .leftParen, .minus] ts := by
  have hminus : ts.head?.map Token.kind ≠ some .minus := by
    intro heq
    obtain ⟨t, ht, hk⟩ := Option.map_eq_some_iff.mp heq
    exact (h t ht).2 hk
  rw [signedValue, bind_run peek_run, if_neg hminus,
    bind_run (value?_run_none fun t ht => (h t ht).1)]

theorem decides_signedValue (hI : DecidedBelow xs.length) :
    Decides (fun n m => signedValue (formula n) (m + 1)) (fun f => Grammar (.signedValue f)) xs := by
  have hnone {xs : List Piece} (hxs : ∀ p ∈ xs.head?, startsValue p.1 = false ∧ p.1 ≠ .minus) :
      Decides (fun n m => signedValue (formula n) (m + 1)) (fun f => Grammar (.signedValue f))
        xs := by
    refine .unexpected (List.cons_ne_nil _ _) ?_ fun n m ts hts =>
      signedValue_run_none
        (forall_head?_kind (P := fun k => startsValue k = false ∧ k ≠ .minus) hxs hts)
    simp only [List.forall_mem_cons]
    exact ⟨reaches_signedValue (.inl rfl), reaches_signedValue (.inl rfl),
      reaches_signedValue (.inl rfl), reaches_signedValue (.inr rfl), nofun⟩
  induction xs with
  | nil => exact hnone nofun
  | cons p ys ih =>
    obtain ⟨k, text⟩ := p
    by_cases hminus : k = .minus
    · subst hminus
      exact ((ih (hI.mono (Nat.le_succ _))).map fun f _ h => .negate h).turn
        fun n m t ts ht _ => signedValue_run_minus ht
    · by_cases hvalue : startsValue k = true
      · exact ((decides_value _ hI hvalue).mono fun _ _ h => .unsignedValue h).head
          fun n m t ts ht _ => signedValue_run_value (ht ▸ hvalue)
      · exact hnone fun p hp => by cases hp; exact ⟨Bool.eq_false_iff.mpr hvalue, hminus⟩

theorem decides_comparison (hI : DecidedBelow xs.length) (relation : Relation) :
    Decides (fun n _ => comparison (formula n) relation)
      (fun t ps => t.relation = relation ∧ Grammar (.signedValue t.value) ps) xs := by
  have hvalue := (decides_signedValue hI).map (g := fun f => (⟨relation, f⟩ : Target Formula))
    (N := fun t ps => t.relation = relation ∧ Grammar (.signedValue t.value) ps)
    fun f ps h => ⟨rfl, h⟩
  refine hvalue.congr fun n m ts _ hn _ => ⟨n, ts.length, hn, Nat.le_refl _, ?_⟩
  rw [comparison, bind_run remaining_run, map_eq_pure_bind]

/-- What follows a comparator completes the condition. -/
theorem decides_compared {k : Kind} {ys : List Piece} {relation : Relation} (text : List Char)
    (hI : DecidedBelow (ys.length + 1)) (hk : relation? k = some relation) :
    Decides (fun n _ => comparison (formula n) relation)
      (fun t ps => Grammar (.comparison t) ((k, text) :: ps)) ys := by
  refine (decides_comparison (hI.mono (Nat.le_succ _)) relation).mono fun t ps h => ?_
  obtain ⟨relation', f⟩ := t
  obtain ⟨rfl, h⟩ := h
  exact .comparison hk h

theorem decides_target (hI : DecidedBelow xs.length) :
    Decides (fun n _ => target (formula n)) (fun t => Grammar (.target t)) xs := by
  by_cases hxs : ∀ p ∈ xs.head?, relation? p.1 = none
  · refine ((decides_comparison hI .equal).mono fun t ps h => ?_).congr fun n m ts hts hn hm =>
      ⟨n, m, hn, hm, target_run_none (forall_head?_kind (P := (relation? · = none)) hxs hts)⟩
    obtain ⟨relation, f⟩ := t
    obtain ⟨rfl, h⟩ := h
    exact .equality h
  · obtain ⟨⟨k, text⟩, ys, rfl, hk⟩ := exists_cons_of_not_forall hxs
    obtain ⟨relation, hk⟩ := Option.ne_none_iff_exists'.mp hk
    refine ((decides_compared _ hI hk).mono fun _ _ h => .compared h).skip fun n m t ts ht _ => ?_
    exact target_run_comparison (ht ▸ hk)

theorem decides_condition (hI : DecidedBelow xs.length) :
    Decides (fun n _ => target? (formula n)) (fun t => Grammar (.condition t)) xs := by
  by_cases hxs : ∀ p ∈ xs.head?, startsTarget p.1 = false
  · exact .done .unconditional fun n m ts hts =>
      target?_run_none (forall_head?_kind (P := (startsTarget · = false)) hxs hts)
  · obtain ⟨⟨k, text⟩, ys, rfl, hk⟩ := exists_cons_of_not_forall hxs
    cases hrelation : relation? k with
    | some relation =>
      have htarget := (decides_compared text hI hrelation).map (g := some)
        (N := fun t ps => Grammar (.condition t) ((k, text) :: ps)) fun _ _ h => .conditional h
      exact htarget.skip fun n m t ts ht _ => target?_run_comparison (ht ▸ hrelation)
    | none =>
      have hvalue : startsValue k = true := by
        cases k <;> first | rfl | exact absurd rfl hk | cases hrelation
      have htarget := (decides_value text hI hvalue).map
        (g := fun f => some (⟨.equal, f⟩ : Target Formula))
        (N := fun t => Grammar (.condition t)) fun _ _ h => .valued h
      exact htarget.head fun n m t ts ht _ => target?_run_value (ht ▸ hvalue)

theorem decides_filter (hI : DecidedBelow xs.length) :
    Decides (fun n _ => filter? (formula n)) (fun t => Grammar (.filter t)) xs := by
  by_cases hxs : ∀ p ∈ xs.head?, relation? p.1 = none
  · exact .done .unfiltered fun n m ts hts =>
      filter?_run_none (forall_head?_kind (P := (relation? · = none)) hxs hts)
  · obtain ⟨⟨k, text⟩, ys, rfl, hk⟩ := exists_cons_of_not_forall hxs
    obtain ⟨relation, hk⟩ := Option.ne_none_iff_exists'.mp hk
    have htarget := (decides_compared text hI hk).map (g := some)
      (N := fun t ps => Grammar (.filter t) ((k, text) :: ps)) fun _ _ h => .filtered h
    exact htarget.skip fun n m t ts ht _ => filter?_run_comparison (ht ▸ hk)

end Values

end Parser

end DiceNotation

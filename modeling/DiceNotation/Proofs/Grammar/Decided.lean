import DiceNotation.Proofs.Grammar.Decided.Terms

/-! The parsers decide the grammar: signs, powers and chains of decided terms are decided, and by
induction on the length of the text so are the formulas that stand in brackets. -/

namespace DiceNotation

open Token (Kind Piece Genuine)

namespace Parser

section Chains

variable {k : Kind} {text : List Char} {xs ys : List Piece}

/-- A power, if two stars come after its base. -/
def powerOf (inner : Parser Formula) (n : Nat) (base : Formula) : Parser Formula := do
  if (← peek) = some .starStar then
    skip
    let exponent ← signed inner n
    return .bare (.arithmetic base [(.pow, exponent)])
  else pure base

theorem signed_run_term {inner : Parser Formula} {n : Nat} {ts : List Token}
    (h : ∀ t ∈ ts.head?, sign? t.kind = none) :
    signed inner (n + 1) ts = (term inner >>= powerOf inner n) ts := by
  cases ts with
  | nil => rfl
  | cons t ts => exact signed_run (h t rfl) ts

theorem decides_powerOf {f : Formula} {ps : List Piece} (hf : Grammar (.term f) ps)
    (hsigned : ∀ text ys, xs = (.starStar, text) :: ys →
      Decides (fun n m => signed (formula n) (m + 1)) (fun f => Grammar (.signed f)) ys) :
    Decides (fun n m => powerOf (formula n) m f) (fun g ws => Grammar (.signed g) (ps ++ ws)) xs := by
  by_cases hxs : xs.head?.map Prod.fst = some .starStar
  · obtain ⟨text, ys, rfl⟩ := exists_cons_of_head? hxs
    have hpower := (hsigned text ys rfl).map
      (g := fun exponent => Formula.bare (.arithmetic f [(.pow, exponent)]))
      (N := fun g ws => Grammar (.signed g) (ps ++ (.starStar, text) :: ws))
      fun _ _ h => .power hf h
    refine hpower.turn fun n m t ts ht _ => ?_
    rw [powerOf, bind_run (peek_cons ht), if_pos rfl, bind_run (skip_run t), map_eq_pure_bind]
  · refine .done (by rw [List.append_nil]; exact .unsigned hf) fun n m ts hts => ?_
    rw [powerOf, bind_run peek_run, map_kind_head? hts, if_neg hxs]
    rfl

theorem decides_signed (hI : DecidedBelow xs.length) :
    Decides (fun n m => signed (formula n) (m + 1)) (fun f => Grammar (.signed f)) xs := by
  induction h : xs.length using Nat.strong_induction_on generalizing xs with
  | _ length ih =>
    have hsuffix (zs : List Piece) (hzs : zs.length < xs.length) :
        Decides (fun n m => signed (formula n) (m + 1)) (fun f => Grammar (.signed f)) zs :=
      ih zs.length (h ▸ hzs) (hI.mono hzs.le) rfl
    by_cases hxs : ∀ p ∈ xs.head?, sign? p.1 = none
    · refine ((decides_term hI).bind (fun f ps qs hxs hf _ => decides_powerOf hf ?_)
        fun f ps hf => ⟨[], f, genuine_nil, by rw [List.append_nil]; exact .unsigned hf⟩).congr
        fun n m ts hts hn hm => ⟨n, m, hn, hm, signed_run_term
          (forall_head?_kind (P := (sign? · = none)) hxs hts)⟩
      intro text ys hqs
      have hlt : ys.length < qs.length := by rw [hqs]; exact Nat.lt_succ_self _
      exact hsuffix _ (hlt.trans_le (length_le_of_append hxs))
    · obtain ⟨⟨k, text⟩, ys, rfl, hk⟩ := exists_cons_of_not_forall hxs
      have hys := hsuffix ys (Nat.lt_succ_self _)
      cases k with
      | minus =>
        refine (hys.map fun _ _ h => .minus h).turn fun n m t ts ht _ => ?_
        rw [signed, bind_run (peek_cons ht)]
        exact bind_run (skip_run t) _
      | plus =>
        refine (hys.mono fun _ _ h => .plus h).turn fun n m t ts ht _ => ?_
        rw [signed, bind_run (peek_cons ht)]
        exact bind_run (skip_run t) _
      | _ => exact absurd rfl hk

theorem decides_factor (hI : DecidedBelow xs.length) :
    Decides (fun n _ => factor (formula n)) (fun f => Grammar (.signed f)) xs :=
  (decides_signed hI).congr fun n _ ts _ hn _ => ⟨n, ts.length, hn, le_rfl, rfl⟩

theorem chain_run_some {ω : Type} {op? : Kind → Option ω} {operand : Parser Formula} {op : ω}
    {t : Token} (h : op? t.kind = some op) (n : Nat) (ts : List Token) :
    chain op? operand (n + 1) (t :: ts) =
      (operand >>= fun f => ((op, f) :: ·) <$> chain op? operand n) ts := by
  rw [chain, bind_run (choose_run_some h)]
  simp only [map_eq_pure_bind]

/-- A chain goes on from what it has come to, as long as there are operators. -/
theorem decides_chain {ω : Type} {op? : Kind → Option ω} {operand : Nat → Parser Formula}
    {L : Formula → List Piece → Prop} {M : List (ω × Formula) → List Piece → Prop}
    (hL : ∀ ys : List Piece, ys.length < xs.length → Decides (fun n _ => operand n) L ys)
    (hM : ∀ {tail ps k op f qs} text, M tail ps → op? k = some op → L f qs →
      M (tail ++ [(op, f)]) (ps ++ (k, text) :: qs))
    {tail : List (ω × Formula)} {ps : List Piece} (h : M tail ps) :
    Decides (fun n m => chain op? (operand n) m) (fun more ws => M (tail ++ more) (ps ++ ws))
      xs := by
  induction hlength : xs.length using Nat.strong_induction_on generalizing xs tail ps with
  | _ length ih =>
    by_cases hxs : ∀ p ∈ xs.head?, op? p.1 = none
    · exact .done (by simpa using h) fun n m ts hts =>
        chain_stop (forall_head?_kind (P := (op? · = none)) hxs hts) m
    · obtain ⟨⟨k, text⟩, ys, rfl, hk⟩ := exists_cons_of_not_forall hxs
      obtain ⟨op, hk⟩ := Option.ne_none_iff_exists'.mp hk
      have hloop := (hL ys (Nat.lt_succ_self _)).bind
        (N := fun more ws => M (tail ++ more) (ps ++ (k, text) :: ws))
        (f := fun f n m => ((op, f) :: ·) <$> chain op? (operand n) m)
        (fun f qs rs hys hf _ => by
          have hle : rs.length ≤ ys.length := length_le_of_append hys
          have hlt : rs.length < length := hlength ▸ Nat.lt_succ_of_le hle
          have hrs := ih rs.length hlt (fun zs hzs => hL zs (hzs.trans (hlength ▸ hlt)))
            (hM text h hk hf) rfl
          exact hrs.map fun more ws hmore => by simpa using hmore)
        fun f qs hf => ⟨[], [(op, f)], genuine_nil, by simpa using hM text h hk hf⟩
      exact hloop.turn fun n m t ts ht _ => chain_run_some (ht ▸ hk) m ts

theorem product_eq (inner : Parser Formula) : product inner = factor inner >>= fun head =>
    remaining >>= fun k => productOf head <$> chain multiplier? (factor inner) k := by
  rw [product]
  congr 1
  funext head
  congr 1
  funext k
  rw [map_eq_pure_bind]
  congr 1
  funext tail
  cases tail <;> rfl

theorem decides_product (hI : DecidedBelow xs.length) :
    Decides (fun n _ => product (formula n))
      (fun f ps => ∃ head tail, Grammar (.product head tail) ps ∧ productOf head tail = f) xs := by
  simp only [product_eq]
  refine (decides_factor hI).bind (fun head ps qs hxs hhead _ => ?_) fun head ps hhead =>
    ⟨[], head, genuine_nil, head, [], by rw [List.append_nil]; exact .factor hhead, rfl⟩
  have hchain := decides_chain (M := fun tail ps => Grammar (.product head tail) ps)
    (fun ys (hys : ys.length < qs.length) =>
      decides_factor (hI.mono (hys.le.trans (length_le_of_append hxs))))
    (fun _ h hk hf => .times hk h hf) (.factor hhead)
  refine (hchain.map (g := productOf head) fun tail ws h => ⟨head, tail, h, rfl⟩).congr
    fun n m ts _ hn _ => ⟨n, ts.length, hn, le_rfl, ?_⟩
  rw [bind_run remaining_run]

theorem decides_sum (hI : DecidedBelow xs.length) :
    Decides (fun n _ => sum (formula n)) Whole xs := by
  simp only [sum, ← map_eq_pure_bind]
  refine (decides_product hI).bind (fun head ps qs hxs hhead _ => ?_) fun head ps hhead => ?_
  · obtain ⟨head, tail, hhead, rfl⟩ := hhead
    have hchain := decides_chain
      (M := fun tail' ps => Grammar (.sum (productOf head tail) tail') ps)
      (fun ys (hys : ys.length < qs.length) =>
        decides_product (hI.mono (hys.le.trans (length_le_of_append hxs))))
      (fun _ h hk hf => by
        obtain ⟨head', tail', hf, rfl⟩ := hf
        exact .added hk h hf) (.summand hhead)
    refine (hchain.map (g := sumOf (productOf head tail)) fun tail' ws h => ⟨_, tail', h, rfl⟩).congr
      fun n m ts _ hn _ => ⟨n, ts.length, hn, le_rfl, ?_⟩
    rw [bind_run remaining_run]
  · obtain ⟨head, tail, hhead, rfl⟩ := hhead
    exact ⟨[], _, genuine_nil, _, [], by rw [List.append_nil]; exact .summand hhead, rfl⟩

/-- Formulas are decided whatever the text. -/
theorem decides_formula (xs : List Piece) : Decides nested Whole xs := by
  induction h : xs.length using Nat.strong_induction_on generalizing xs with
  | _ length ih => exact decides_sum fun ys hys => ih ys.length (h ▸ hys) ys rfl

end Chains

end Parser

end DiceNotation

import DiceNotation.Proofs.Arithmetic.Tokens
import DiceNotation.Proofs.Grammar.Phrases

/-! Arithmetic joined by operators. Two texts of arithmetic with an operator between them are a text of
arithmetic again, whatever they have at their ends: the operator takes from the end of the left text and
from the start of the right one what binds as tightly as it asks for, and leaves the rest as it was. -/

namespace DiceNotation

open Token (Kind Piece)

/-- The pieces are those of a phrase that may stand at the rank. -/
def Stands (rank : Nat) (ps : List Piece) : Prop :=
  ∃ phrase, rank ≤ phrase.rank ∧ Derives phrase ps

section Levels

variable {rank : Nat} {ps : List Piece}

theorem Derives.stands {phrase : Phrase} (h : Derives phrase ps) (hrank : rank ≤ phrase.rank) :
    Stands rank ps :=
  ⟨phrase, hrank, h⟩

theorem Derives.stands_signed {f : Formula} (h : Derives (.signed f) ps) : Stands 2 ps :=
  ⟨.signed f, Nat.le_succ 2, h⟩

theorem Stands.mono {rank' : Nat} (h : Stands rank ps) (hle : rank' ≤ rank) : Stands rank' ps := by
  obtain ⟨phrase, hrank, h⟩ := h
  exact h.stands (by omega)

theorem Stands.signed (h : Stands 2 ps) : ∃ f, Derives (.signed f) ps := by
  obtain ⟨phrase, hrank, h⟩ := h
  exact ⟨_, h.signed_of_rank hrank⟩

theorem Stands.product (h : Stands 1 ps) : ∃ head tail, Derives (.product head tail) ps := by
  obtain ⟨phrase, hrank, h⟩ := h
  obtain ⟨head, tail, hproduct, -⟩ := h.product_of_rank hrank
  exact ⟨head, tail, hproduct⟩

theorem Stands.sum (h : Stands 0 ps) : ∃ head tail, Derives (.sum head tail) ps := by
  obtain ⟨phrase, -, h⟩ := h
  obtain ⟨head, tail, hsum, -⟩ := h.sum
  exact ⟨head, tail, hsum⟩

end Levels

section Ends

variable {ps qs : List Piece} {p : Piece}

/-- What goes on after a signed term goes on after a product, the last factor of which is one. -/
theorem Stands.product_append (h : ∀ ps, Stands 2 ps → Stands 2 (ps ++ qs)) (hps : Stands 1 ps) :
    Stands 1 (ps ++ qs) := by
  obtain ⟨_, _, hproduct⟩ := hps.product
  cases hproduct with
  | factor hf => exact (h _ hf.stands_signed).mono (by decide)
  | times hop hleft hright =>
    obtain ⟨_, hf⟩ := (h _ hright.stands_signed).signed
    rw [List.append_assoc, List.cons_append]
    exact (hleft.times hop hf).stands le_rfl

theorem Stands.sum_append (h : ∀ ps, Stands 1 ps → Stands 1 (ps ++ qs)) (hps : Stands 0 ps) :
    Stands 0 (ps ++ qs) := by
  obtain ⟨_, _, hsum⟩ := hps.sum
  cases hsum with
  | summand hproduct => exact (h _ (hproduct.stands le_rfl)).mono (by decide)
  | plus hop hleft hright =>
    obtain ⟨_, _, hproduct⟩ := (h _ (hright.stands le_rfl)).product
    rw [List.append_assoc, List.cons_append]
    exact (hleft.plus hop hproduct).stands le_rfl

/-- What goes before a signed term goes before a product, which starts with one and grows at its
end. -/
theorem Derives.append_product {head : Formula} {tail : List (Operator × Formula)}
    (h : ∀ qs, Stands 2 qs → Stands 1 (ps ++ p :: qs)) (hqs : Derives (.product head tail) qs) :
    Stands 1 (ps ++ p :: qs) := by
  generalize hphrase : Phrase.product head tail = phrase at hqs
  induction hqs generalizing head tail with
  | factor hf => exact h _ hf.stands_signed
  | times hop hleft hright ih =>
    obtain ⟨_, _, hproduct⟩ := (ih rfl).product
    rw [← List.cons_append, ← List.append_assoc]
    exact (hproduct.times hop hright).stands le_rfl
  | _ => cases hphrase

theorem Derives.append_sum {head : Formula} {tail : List (Sign × Formula)}
    (h : ∀ qs, Stands 1 qs → Stands 0 (ps ++ p :: qs)) (hqs : Derives (.sum head tail) qs) :
    Stands 0 (ps ++ p :: qs) := by
  generalize hphrase : Phrase.sum head tail = phrase at hqs
  induction hqs generalizing head tail with
  | summand hproduct => exact h _ (hproduct.stands le_rfl)
  | plus hop hleft hright ih =>
    obtain ⟨_, _, hsum⟩ := (ih rfl).sum
    rw [← List.cons_append, ← List.append_assoc]
    exact (hsum.plus hop hright).stands le_rfl
  | _ => cases hphrase

end Ends

section Joining

variable {ps qs : List Piece} {k : Kind} {text : List Char}

/-- The base of a power is the last term before it, past all signs and powers in front of that. -/
theorem Derives.stands_power {f : Formula} (hps : Derives (.signed f) ps) (hqs : Stands 2 qs) :
    Stands 2 (ps ++ (.starStar, text) :: qs) := by
  obtain ⟨_, hexponent⟩ := hqs.signed
  generalize hphrase : Phrase.signed f = phrase at hps
  induction hps generalizing f with
  | unsigned hterm => exact (hterm.power hexponent).stands_signed
  | power hbase _ _ ih =>
    obtain ⟨_, hsigned⟩ := (ih rfl).signed
    rw [List.append_assoc, List.cons_append]
    exact (hbase.power hsigned).stands_signed
  | minus _ ih =>
    obtain ⟨_, hsigned⟩ := (ih rfl).signed
    exact hsigned.minus.stands_signed
  | _ => cases hphrase

/-- Powers bind the last factor on the left and the first one on the right. -/
theorem Stands.power (hps : Stands 1 ps) (hqs : Stands 1 qs) :
    Stands 1 (ps ++ (.starStar, text) :: qs) := by
  obtain ⟨_, _, hproduct⟩ := hqs.product
  refine hproduct.append_product fun qs hqs => hps.product_append fun ps hps => ?_
  obtain ⟨_, hsigned⟩ := hps.signed
  exact hsigned.stands_power hqs

theorem Stands.times {op : Operator} (hop : Parser.multiplier? k = some op) (hps : Stands 1 ps)
    (hqs : Stands 1 qs) : Stands 1 (ps ++ (k, text) :: qs) := by
  obtain ⟨_, _, hleft⟩ := hps.product
  obtain ⟨_, _, hproduct⟩ := hqs.product
  refine hproduct.append_product fun qs hqs => ?_
  obtain ⟨_, hsigned⟩ := hqs.signed
  exact (hleft.times hop hsigned).stands le_rfl

/-- An operator that joins products joins sums, by the last summand on the left and the first one on
the right. -/
theorem Stands.join_of_products
    (h : ∀ ps qs, Stands 1 ps → Stands 1 qs → Stands 1 (ps ++ (k, text) :: qs)) (hps : Stands 0 ps)
    (hqs : Stands 0 qs) : Stands 0 (ps ++ (k, text) :: qs) := by
  obtain ⟨_, _, hsum⟩ := hqs.sum
  exact hsum.append_sum fun qs hqs => hps.sum_append fun ps hps => h ps qs hps hqs

theorem Stands.plus {op : Sign} (hop : Parser.sign? k = some op) (hps : Stands 0 ps)
    (hqs : Stands 0 qs) : Stands 0 (ps ++ (k, text) :: qs) := by
  obtain ⟨_, _, hleft⟩ := hps.sum
  obtain ⟨_, _, hsum⟩ := hqs.sum
  refine hsum.append_sum fun qs hqs => ?_
  obtain ⟨_, _, hproduct⟩ := hqs.product
  exact (hleft.plus hop hproduct).stands le_rfl

/-- Any operator may stand between two texts of arithmetic. -/
theorem Stands.join (op : Operator) (hps : Stands 0 ps) (hqs : Stands 0 qs) :
    Stands 0 (ps ++ (op.kind, text) :: qs) := by
  cases op with
  | add =>
    have hop : Parser.sign? Operator.add.kind = some .plus := rfl
    exact hps.plus hop hqs
  | sub =>
    have hop : Parser.sign? Operator.sub.kind = some .minus := rfl
    exact hps.plus hop hqs
  | mul | div | rem => exact hps.join_of_products (fun _ _ hps hqs => hps.times rfl hqs) hqs
  | pow => exact hps.join_of_products (fun _ _ hps hqs => hps.power hqs) hqs

end Joining

end DiceNotation

import DiceNotation.Proofs.Arithmetic.Meaning
import DiceNotation.Proofs.Grammar.WellFormed

/-! Formulas of arithmetic: integers, and chains of operators between formulas of arithmetic. A text
without any other tokens is one. Their dice are none, so they come to the same from every source. -/

namespace DiceNotation

open DiceNotation.Parser
open Token (Kind Piece)

/-- The kinds of integers, operators and parentheses. -/
def Token.Kind.isArithmetic : Kind → Bool
  | .integer | .plus | .minus | .star | .slash | .percent | .starStar => true
  | .leftParen | .rightParen => true
  | _ => false

namespace Formula

/-- Any further operator of a chain takes all that stands before it as its left operand. -/
inductive Arithmetic : Formula → Prop
  | number {i : Int64} (h : i ≠ Int64.minValue) : Arithmetic (.int i)
  | chain {head f : Formula} {op : Operator} {tail : List (Operator × Formula)}
      (hhead : Arithmetic head) (hf : Arithmetic f) (hlevel : ∀ t ∈ tail, t.1.leftRank = op.rank)
      (htail : ∀ t ∈ tail, Arithmetic t.2) : Arithmetic (.bare (.arithmetic head ((op, f) :: tail)))

theorem Arithmetic.throwsDice {f : Formula} (h : f.Arithmetic) : f.throwsDice = false := by
  cases h <;> rfl

end Formula

section Chains

variable {head : Formula}

theorem arithmetic_sumOf {tail : List (Sign × Formula)} (hhead : head.Arithmetic)
    (htail : ∀ t ∈ tail, t.2.Arithmetic) : (sumOf head tail).Arithmetic := by
  cases tail with
  | nil => exact hhead
  | cons t tail =>
    have hdice : (t :: tail).any (fun t => t.2.throwsDice) = false :=
      List.any_eq_false.mpr fun t ht => by simp [(htail t ht).throwsDice]
    obtain ⟨ht, htail⟩ := List.forall_mem_cons.mp htail
    rw [sumOf, hhead.throwsDice, hdice]
    refine .chain hhead ht (fun u hu => ?_) (List.forall_mem_map.mpr htail)
    obtain ⟨v, -, rfl⟩ := List.mem_map.mp hu
    obtain ⟨op, f⟩ := t
    obtain ⟨op', f'⟩ := v
    cases op <;> cases op' <;> rfl

theorem arithmetic_productOf {tail : List (Operator × Formula)} (hhead : head.Arithmetic)
    (htail : ∀ t ∈ tail, t.1 ∈ [.mul, .div, .rem] ∧ t.2.Arithmetic) :
    (productOf head tail).Arithmetic := by
  have hlevel (op : Operator) (h : op ∈ [.mul, .div, .rem]) : op.leftRank = 1 ∧ op.rank = 1 := by
    cases op <;> first | exact ⟨rfl, rfl⟩ | simp at h
  cases tail with
  | nil => exact hhead
  | cons t tail =>
    obtain ⟨⟨hop, ht⟩, htail⟩ := List.forall_mem_cons.mp htail
    refine .chain hhead ht (fun u hu => ?_) fun u hu => (htail u hu).2
    rw [(hlevel _ (htail u hu).1).1, (hlevel _ hop).2]

theorem arithmetic_opposite {f : Formula} (h : f.Arithmetic) : (opposite f).Arithmetic := by
  cases h with
  | @number i hi =>
    obtain ⟨j, hneg, -, hj⟩ := neg_int hi
    have heq : opposite (.int i) = .number (-.int i) := rfl
    rw [heq, hneg]
    exact .number hj
  | chain hhead hf hlevel htail =>
    exact .chain (.number (by decide)) (.chain hhead hf hlevel htail) nofun nofun

end Chains

/-- The formulas that values, terms and their chains are read as are of arithmetic. -/
def Construct.Arithmetic : Construct → Prop
  | .parens f | .value f | .unlabeled f | .term f | .signed f => f.Arithmetic
  | .product head tail =>
    head.Arithmetic ∧ ∀ t ∈ tail, t.1 ∈ [.mul, .div, .rem] ∧ t.2.Arithmetic
  | .sum head tail => head.Arithmetic ∧ ∀ t ∈ tail, t.2.Arithmetic
  | _ => True

theorem Grammar.arithmetic {c : Construct} {ps : List Piece} (h : Grammar c ps)
    (hps : ∀ p ∈ ps, p.1.isArithmetic = true) : c.Arithmetic := by
  induction h with
  | parens h ih =>
    obtain ⟨hps, -⟩ := List.forall_mem_append.mp hps
    obtain ⟨hhead, htail⟩ := ih (List.forall_mem_cons.mp hps).2
    exact arithmetic_sumOf hhead htail
  | integer h => exact .number (ne_minValue_of_integer? h)
  | enclosed h ih | plain h ih | unsigned h ih => exact ih hps
  | decimal | group | inline | replacement => simp [Token.Kind.isArithmetic] at hps
  | dice =>
    cases hps (.dice, _) (List.mem_append_left _ (List.mem_append_right _ List.mem_cons_self))
  | @function k _ _ _ _ hk =>
    obtain ⟨hkind, -⟩ := List.forall_mem_cons.mp hps
    cases k <;> cases hk <;> cases hkind
  | labels h texts ih =>
    obtain ⟨hterm, hlabels⟩ := List.forall_mem_append.mp hps
    cases texts with
    | nil => exact ih hterm
    | cons => simp [Token.Kind.isArithmetic] at hlabels
  | power hbase h ihbase ih =>
    obtain ⟨hps, hqs⟩ := List.forall_mem_append.mp hps
    exact .chain (ihbase hps) (ih (List.forall_mem_cons.mp hqs).2) nofun nofun
  | minus h ih => exact arithmetic_opposite (ih (List.forall_mem_cons.mp hps).2)
  | plus h ih => exact ih (List.forall_mem_cons.mp hps).2
  | factor h ih => exact ⟨ih hps, nofun⟩
  | times hk hleft hright ihleft ihright =>
    obtain ⟨hps, hqs⟩ := List.forall_mem_append.mp hps
    obtain ⟨hhead, htail⟩ := ihleft hps
    refine ⟨hhead, List.forall_mem_append.mpr ⟨htail, List.forall_mem_singleton.mpr ?_⟩⟩
    exact ⟨mem_of_multiplier? hk, ihright (List.forall_mem_cons.mp hqs).2⟩
  | summand h ih =>
    obtain ⟨hhead, htail⟩ := ih hps
    exact ⟨arithmetic_productOf hhead htail, nofun⟩
  | added hk hleft hright ihleft ihright =>
    obtain ⟨hps, hqs⟩ := List.forall_mem_append.mp hps
    obtain ⟨hhead, htail⟩ := ihleft hps
    obtain ⟨hhead', htail'⟩ := ihright (List.forall_mem_cons.mp hqs).2
    refine ⟨hhead, List.forall_mem_append.mpr ⟨htail, List.forall_mem_singleton.mpr ?_⟩⟩
    exact arithmetic_productOf hhead' htail'
  | _ => trivial

/-- A text of integers, operators and parentheses is arithmetic. -/
theorem arithmetic_of_parse {text : String} {f : Formula} (h : Formula.parse text = .ok f)
    (hpieces : ∀ p ∈ pieces text, p.1.isArithmetic = true) : f.Arithmetic := by
  obtain ⟨head, tail, hgrammar, rfl⟩ := whole_of_parse h
  obtain ⟨hhead, htail⟩ := hgrammar.arithmetic hpieces
  exact arithmetic_sumOf hhead htail

namespace Play

variable {α β : Type}

/-- The computation comes to the same at every table, and draws nothing. -/
def Steady (p : Play α) : Prop :=
  ∃ result, ∀ t n, p t n = (result, n)

theorem steady_pure (a : α) : (Pure.pure a : Play α).Steady :=
  ⟨.ok a, fun _ _ => rfl⟩

theorem steady_fault (e : Fault) : (fault e : Play α).Steady :=
  ⟨.error e, fun _ _ => rfl⟩

theorem Steady.bind {p : Play α} {f : α → Play β} (h : p.Steady) (hf : ∀ a, (f a).Steady) :
    (p >>= f).Steady := by
  obtain ⟨e | a, h⟩ := h
  · exact ⟨.error e, fun t n => bind_error (h t n) f⟩
  · obtain ⟨result, ha⟩ := hf a
    exact ⟨result, fun t n => (bind_ok (h t n) f).trans (ha t n)⟩

theorem Steady.map {p : Play α} (h : p.Steady) (f : α → β) : (f <$> p).Steady := by
  rw [map_eq_pure_bind]
  exact h.bind fun a => steady_pure (f a)

theorem Steady.run_eq {p : Play α} (h : p.Steady) {t : Table} {n m : Nat} {a : α}
    (hp : p t n = (.ok a, m)) (u : Table) (k : Nat) : p u k = (.ok a, k) := by
  obtain ⟨result, h⟩ := h
  obtain ⟨rfl, -⟩ := Prod.mk.inj ((h t n).symm.trans hp)
  exact h u k

theorem steady_combine (op : Operator) (x y : Number) : (combine op x y).Steady := by
  cases op with
  | div | rem =>
    simp only [combine]
    split
    · exact steady_fault _
    · exact steady_pure _
  | add | sub | mul | pow => exact steady_pure _

end Play

open Play

theorem steady_rollMathTail {tail : List (Operator × Formula)} (h : ∀ t ∈ tail, t.2.roll.Steady)
    (x : Number) (order : Nat) : (rollMathTail tail x order).Steady := by
  induction tail generalizing x order with
  | nil => exact steady_pure _
  | cons t tail ih =>
    obtain ⟨ht, htail⟩ := List.forall_mem_cons.mp h
    refine ht.bind fun o => (steady_combine t.1 x o.value).bind fun y => ?_
    exact (ih htail y (order + 1)).bind fun _ => steady_pure _

theorem Formula.Arithmetic.steady {f : Formula} (h : f.Arithmetic) : f.roll.Steady := by
  induction h with
  | number => exact steady_pure _
  | @chain head f op tail hhead hf hlevel htail ihhead ihf ihtail =>
    have hoperands : ∀ t ∈ (op, f) :: tail, t.2.roll.Steady :=
      List.forall_mem_cons.mpr ⟨ihf, ihtail⟩
    rw [bare, roll, Shape.roll]
    refine (ihhead.bind fun o => ?_).bind fun o => steady_pure _
    exact (steady_rollMathTail hoperands o.value 1).bind fun _ => steady_pure _

theorem Formula.Arithmetic.steady_result {f : Formula} (h : f.Arithmetic) : f.result.Steady :=
  h.steady.map _

end DiceNotation

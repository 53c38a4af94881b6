import DiceNotation.Proofs.Arithmetic.Basic
import DiceNotation.Proofs.Grammar.Reading
import DiceNotation.Proofs.Number.Range
import DiceNotation.Proofs.Roll.Chains
import DiceNotation.Proofs.Roll.Flattening

/-! Formulas that mean arithmetic. A minus sign before a literal is a literal with its sign changed,
and any other one is a factor of `-1`; both come to the same, as no literal is so low that its
negative leaves the range. -/

namespace DiceNotation

open Play

/-- A formula that comes to a number in the given way. A literal has a negative of 64 bits. -/
structure Formula.Means (f : Formula) (p : Play Number) : Prop where
  result : f.result = p
  literal : ∀ n, f.shape = .number n → ∃ i, n = .int i ∧ i ≠ Int64.minValue

section Negation

theorem int_mul_int (i j : Int64) : (Number.int i * .int j : Number) =
    Number.ofIntOr (i.toInt * j.toInt) (Float.ofInt i.toInt * Float.ofInt j.toInt) :=
  rfl

theorem neg_int {i : Int64} (h : i ≠ Int64.minValue) :
    ∃ j, -Number.int i = .int j ∧ Number.int (-1) * .int i = .int j ∧ j ≠ Int64.minValue := by
  have hmin : Int64.minValue.toInt = -0x8000000000000000 := by decide
  have hone : (-1 : Int64).toInt = -1 := by decide
  have hne : i.toInt ≠ Int64.minValue.toInt := fun heq => h (Int64.toInt_inj.mp heq)
  have hlt := Int64.toInt_lt i
  have hle := Int64.le_toInt i
  have hfits : Number.Fits (-i.toInt) := by
    unfold Number.Fits
    omega
  refine ⟨Int64.ofInt (-i.toInt), Number.ofInt_of_fits hfits, ?_, fun heq => ?_⟩
  · rw [int_mul_int, hone, Int.neg_one_mul, Number.ofIntOr, if_pos hfits]
  · have hj := congrArg Int64.toInt heq
    rw [Number.toInt_ofInt_of_fits hfits, hmin] at hj
    omega

theorem result_negated (f : Formula) : f.negated.result = (.int (-1) * ·) <$> f.result := by
  have hone : (Formula.int (-1)).result = Pure.pure (.int (-1)) := rfl
  rw [Formula.negated, result_arithmetic, hone, pure_bind, foldTail]
  rfl

/-- A minus sign is a factor of `-1`, whether it makes one or goes into a literal. -/
theorem means_opposite {f : Formula} {p : Play Number} (h : f.Means p) :
    (Parser.opposite f).Means ((.int (-1) * ·) <$> p) := by
  obtain ⟨rfl, hliteral⟩ := h
  have hnegated : f.negated.Means ((.int (-1) * ·) <$> f.result) :=
    ⟨result_negated f, fun n hn => by cases hn⟩
  unfold Parser.opposite
  split
  · rename_i n
    obtain ⟨i, rfl, hi⟩ := hliteral n rfl
    obtain ⟨j, hneg, hmul, hj⟩ := neg_int hi
    have hresult : (⟨.number (.int i), none⟩ : Formula).result = Pure.pure (.int i) := rfl
    rw [hresult, map_pure, hneg, hmul]
    exact ⟨rfl, fun n hn => ⟨j, (Shape.number.inj hn).symm, hj⟩⟩
  · exact hnegated

end Negation

section Leaves

variable {i : Int64}

theorem toInt_ne_of_ne_minValue (h : i ≠ Int64.minValue) : i.toInt ≠ -0x8000000000000000 :=
  fun heq => h (Int64.toInt_inj.mp heq)

/-- The absolute value of an integer other than the least is a literal. -/
theorem exists_literal (h : i ≠ Int64.minValue) : ∃ n : Literal, n.val = i.toInt.natAbs := by
  have hne := toInt_ne_of_ne_minValue h
  have hle := Int64.le_toInt i
  have hlt := Int64.toInt_lt i
  exact ⟨⟨i.toInt.natAbs, by omega⟩, rfl⟩

/-- A negative integer is read as the opposite of a literal. -/
theorem opposite_natAbs (h : i ≠ Int64.minValue) (hneg : i.toInt < 0) :
    Parser.opposite (.int (Int64.ofInt i.toInt.natAbs)) = .int i := by
  have hne := toInt_ne_of_ne_minValue h
  have hle := Int64.le_toInt i
  have habs : (Int64.ofInt i.toInt.natAbs).toInt = i.toInt.natAbs :=
    Number.toInt_ofInt_of_fits ⟨by omega, by omega⟩
  have hvalue : (-(Number.int (Int64.ofInt i.toInt.natAbs)) : Number) = .int i := by
    show Number.ofInt (-(Int64.ofInt i.toInt.natAbs).toInt) = _
    rw [habs, show (-(i.toInt.natAbs : Int)) = i.toInt by omega,
      Number.ofInt_of_fits ⟨by omega, by omega⟩, Int64.ofInt_toInt]
  exact congrArg Formula.number hvalue

theorem means_int (h : i ≠ Int64.minValue) : (Formula.int i).Means (Pure.pure (.int i)) :=
  ⟨rfl, fun _ hn => ⟨i, (Shape.number.inj hn).symm, h⟩⟩

theorem means_literal (n : Literal) :
    (Formula.int (Int64.ofInt n.val)).Means (Arith.literal n).eval := by
  refine means_int fun heq => ?_
  have hmin : Int64.minValue.toInt = -0x8000000000000000 := by decide
  have hfits : Number.Fits n.val := by
    unfold Number.Fits
    omega
  have hn := congrArg Int64.toInt heq
  rw [Number.toInt_ofInt_of_fits hfits, hmin] at hn
  omega

theorem means_dice (count sides : Literal) :
    (Formula.die (.plain (.int (Int64.ofInt count.val)) (.sides (.int (Int64.ofInt sides.val))))).Means
      (Arith.dice count sides).eval := by
  refine ⟨?_, fun n hn => by cases hn⟩
  have hliteral (n : Literal) : (Formula.int (Int64.ofInt n.val)).roll =
      Pure.pure (.number n.value) := rfl
  rw [Formula.result, Formula.die, Formula.bare, Die.plain, roll_plain_eq_thrown]
  have hvalue (x : Number) : (Outcome.number x).value = x := rfl
  simp only [Die.thrown, rollFaces, rollMods, hliteral, hvalue, Arith.eval, bind_pure_comp,
    pure_bind, bind_map_left, map_bind, map_pure, Functor.map_map]
  exact bind_congr fun size => bind_congr fun faces => rfl

end Leaves

section Operations

open DiceNotation.Parser (productOf sumOf)

variable {head f : Formula} {p q : Play Number}

/-- Two ways to come to a number, one after the other and under an operator. -/
def combined (op : Operator) (p q : Play Number) : Play Number :=
  p >>= fun x => q >>= fun y => Play.combine op x y

theorem result_productOf (head : Formula) (tail : List (Operator × Formula)) :
    (productOf head tail).result = head.result >>= foldTail tail := by
  unfold productOf
  split
  · rename_i hempty
    obtain rfl : tail = [] := List.isEmpty_iff.mp hempty
    simp [foldTail]
  · exact result_arithmetic head tail

theorem foldTail_snoc {tail : List (Operator × Formula)} (op : Operator)
    (h : head.result >>= foldTail tail = p) (hf : f.Means q) :
    head.result >>= foldTail (tail ++ [(op, f)]) = combined op p q := by
  rw [← h, combined, bind_assoc, ← hf.result]
  exact bind_congr fun x => foldTail_append tail op f x

theorem means_times {tail : List (Operator × Formula)} {op : Operator}
    (h : (productOf head tail).Means p) (hf : f.Means q) :
    (productOf head (tail ++ [(op, f)])).Means (combined op p q) := by
  refine ⟨?_, fun n hn => ?_⟩
  · rw [result_productOf]
    exact foldTail_snoc op ((result_productOf head tail).symm.trans h.result) hf
  · simp [productOf, Formula.bare] at hn

theorem means_plus {tail : List (Sign × Formula)} {op : Sign} (h : (sumOf head tail).Means p)
    (hf : f.Means q) : (sumOf head (tail ++ [(op, f)])).Means (combined op.toOperator p q) := by
  have hoperators : operators (tail ++ [(op, f)]) = operators tail ++ [(op.toOperator, f)] := by
    simp [operators]
  refine ⟨?_, fun n hn => ?_⟩
  · rw [result_sumOf, hoperators]
    exact foldTail_snoc _ ((result_sumOf head tail).symm.trans h.result) hf
  · unfold sumOf at hn
    split at hn
    · rename_i hempty
      simp at hempty
    · split at hn <;> cases hn

theorem means_power (h : head.Means p) (hf : f.Means q) :
    (Formula.bare (.arithmetic head [(.pow, f)])).Means (combined .pow p q) := by
  have hhead : head.result >>= foldTail [] = p := by
    rw [← h.result]
    exact bind_pure head.result
  refine ⟨?_, fun n hn => by cases hn⟩
  rw [result_arithmetic]
  exact foldTail_snoc .pow hhead hf

theorem eval_binary (op : Operator) (a b : Arith) :
    (Arith.binary op a b).eval = combined op a.eval b.eval := by
  refine bind_congr fun x => bind_congr fun y => ?_
  cases op <;> cases hy : y.isZero <;> simp [Play.combine, Operator.apply, hy]

end Operations

end DiceNotation

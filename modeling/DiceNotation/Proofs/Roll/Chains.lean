import DiceNotation.Formula.Roll
import DiceNotation.Grammar.Formula

/-! What chains of operators come to. A chain is rolled from left to right, whether it is arithmetic
or a sum of dice; so it comes to what its operators make of its head, one after the other. -/

namespace DiceNotation

open Play

/-- The number that a formula comes to. -/
def Formula.result (f : Formula) : Play Number :=
  Outcome.value <$> f.roll

/-- A number after a chain of operators, each with the formula on its right. -/
def foldTail : List (Operator × Formula) → Number → Play Number
  | [], x => return x
  | (op, f) :: rest, x => do foldTail rest (← combine op x (← f.result))

/-- A chain of signs as one of operators. -/
def operators (tail : List (Sign × Formula)) : List (Operator × Formula) :=
  tail.map fun t => (t.1.toOperator, t.2)

section Chains

theorem foldTail_append (tail : List (Operator × Formula)) (op : Operator) (f : Formula)
    (x : Number) : foldTail (tail ++ [(op, f)]) x = foldTail tail x >>= fun x =>
      f.result >>= fun y => combine op x y := by
  induction tail generalizing x with
  | nil => simp [foldTail]
  | cons t tail ih => simp only [List.cons_append, foldTail, ih, bind_assoc]

theorem rollMathTail_value (tail : List (Operator × Formula)) (x : Number) (order : Nat) :
    Prod.snd <$> rollMathTail tail x order = foldTail tail x := by
  induction tail generalizing x order with
  | nil => simp [rollMathTail, foldTail]
  | cons t tail ih =>
    simp only [rollMathTail, foldTail, Formula.result, bind_pure_comp, map_bind, Functor.map_map,
      bind_map_left, ih]

theorem combine_toOperator (op : Sign) (x y : Number) :
    combine op.toOperator x y = Pure.pure (op.apply x y) := by
  cases op <;> rfl

theorem rollDiceTail_value (tail : List (Sign × Formula)) (x : Number) (order : Nat) :
    Prod.snd <$> rollDiceTail tail x order = foldTail (operators tail) x := by
  induction tail generalizing x order with
  | nil => simp [rollDiceTail, operators, foldTail]
  | cons t tail ih =>
    simp only [operators] at ih
    simp only [rollDiceTail, operators, List.map_cons, foldTail, Formula.result, combine_toOperator,
      bind_pure_comp, map_bind, Functor.map_map, bind_map_left, pure_bind, ih]

theorem result_bare (shape : Shape) : (Formula.bare shape).result = Outcome.value <$> shape.roll := by
  simp only [Formula.result, Formula.bare, Formula.roll, bind_pure_comp, Functor.map_map]
  rfl

theorem result_arithmetic (head : Formula) (tail : List (Operator × Formula)) :
    (Formula.bare (.arithmetic head tail)).result = head.result >>= foldTail tail := by
  rw [result_bare]
  simp only [Shape.roll, Formula.result, bind_pure_comp, map_bind, Functor.map_map, bind_map_left]
  exact bind_congr fun o => rollMathTail_value tail o.value 1

theorem result_diceSum (head : Formula) (tail : List (Sign × Formula)) :
    (Formula.bare (.diceSum head tail)).result = head.result >>= foldTail (operators tail) := by
  rw [result_bare]
  simp only [Shape.roll, Formula.result, bind_pure_comp, map_bind, Functor.map_map, bind_map_left]
  exact bind_congr fun o => rollDiceTail_value tail o.value 1

theorem result_sumOf (head : Formula) (tail : List (Sign × Formula)) :
    (Parser.sumOf head tail).result = head.result >>= foldTail (operators tail) := by
  unfold Parser.sumOf
  split
  · rename_i hempty
    obtain rfl : tail = [] := List.isEmpty_iff.mp hempty
    simp [operators, foldTail]
  · split
    · exact result_diceSum head tail
    · exact result_arithmetic head (operators tail)

end Chains

end DiceNotation

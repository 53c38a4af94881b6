import DiceNotation.Number.Decimal

/-!
The numbers of a roll. Dice and integer arithmetic stay integers of 64 bits; an inexact division, a
fractional power and a result out of range become floats.
-/

namespace DiceNotation

inductive Number where
  | int (value : Int64)
  | float (value : Float)

namespace Number

instance : Inhabited Number := ⟨.int 0⟩

def zero : Number := .int 0

def Fits (i : Int) : Prop :=
  -0x8000000000000000 ≤ i ∧ i < 0x8000000000000000

instance (i : Int) : Decidable (Fits i) :=
  inferInstanceAs (Decidable (_ ∧ _))

def ofIntOr (i : Int) (rounded : Float) : Number :=
  if Fits i then .int (Int64.ofInt i) else .float rounded

def ofInt (i : Int) : Number :=
  ofIntOr i (Float.ofInt i)

def ofNat (n : Nat) : Number :=
  ofInt n

def toFloat : Number → Float
  | .int x => Float.ofInt x.toInt
  | .float x => x

def saturate (i : Int) : Int64 :=
  Int64.ofInt (max (-0x8000000000000000) (min i 0x7fffffffffffffff))

/-- The integer part; an infinite number goes to the end of the range, and what is not a number
goes to zero. -/
def toInt64 : Number → Int64
  | .int x => x
  | .float x =>
    match Binary.ofFloat? x with
    | some b => saturate b.trunc
    | none => if x.isNaN then 0 else if x < 0 then Int64.minValue else Int64.maxValue

def isZero : Number → Bool
  | .int x => x == 0
  | .float x => x == 0

def rounded (f : Binary → Int) : Number → Number
  | .int x => .int x
  | .float x =>
    match Binary.ofFloat? x with
    | some b => if (f b).natAbs < 0x8000000000000000 then .int (Int64.ofInt (f b)) else .float x
    | none => .float x

def floor : Number → Number := rounded Binary.floor

def ceil : Number → Number := rounded Binary.ceil

def round : Number → Number := rounded Binary.round

def abs : Number → Number
  | .int x => ofInt x.toInt.natAbs
  | .float x => .float x.abs

def neg : Number → Number
  | .int x => ofInt (-x.toInt)
  | .float x => .float (-x)

/-- Exact on integers while the result fits, and otherwise on floats. -/
def combine (exact : Int → Int → Int) (rounded : Float → Float → Float) :
    Number → Number → Number
  | .int x, .int y =>
    ofIntOr (exact x.toInt y.toInt) (rounded (Float.ofInt x.toInt) (Float.ofInt y.toInt))
  | a, b => .float (rounded a.toFloat b.toFloat)

def add : Number → Number → Number := combine (· + ·) (· + ·)

def sub : Number → Number → Number := combine (· - ·) (· - ·)

def mul : Number → Number → Number := combine (· * ·) (· * ·)

/-- The remainder of the division truncated towards zero. The least integer over `-1` is left to
the floats, as the quotient does not fit. -/
def rem : Number → Number → Number
  | .int x, .int y =>
    if y = 0 ∨ ¬ Fits (x.toInt.tdiv y.toInt) then
      .float (floatRem (Float.ofInt x.toInt) (Float.ofInt y.toInt))
    else .int (Int64.ofInt (x.toInt.tmod y.toInt))
  | a, b => .float (floatRem a.toFloat b.toFloat)

def div : Number → Number → Number
  | .int x, .int y =>
    let quotient := Float.ofInt x.toInt / Float.ofInt y.toInt
    if y ≠ 0 ∧ y.toInt ∣ x.toInt then ofIntOr (x.toInt.tdiv y.toInt) quotient
    else .float quotient
  | a, b => .float (a.toFloat / b.toFloat)

/-- An integer power, unless it is sure to be out of range. -/
def intPow? (x : Int) (n : Nat) : Option Int :=
  if x.natAbs ≤ 1 then some (if n = 0 then 1 else if n % 2 = 0 then x * x else x)
  else if n < 64 then some (Int.pow x n)
  else none

def pow : Number → Number → Number
  | .int x, .int y =>
    let power := (Float.ofInt x.toInt).pow (Float.ofInt y.toInt)
    if 0 ≤ y.toInt ∧ y.toInt < 0x100000000 then
      match intPow? x.toInt y.toInt.toNat with
      | some i => ofIntOr i power
      | none => .float power
    else .float power
  | a, b => .float (a.toFloat.pow b.toFloat)

instance : Add Number := ⟨add⟩
instance : Sub Number := ⟨sub⟩
instance : Mul Number := ⟨mul⟩
instance : Neg Number := ⟨neg⟩

def sum (ns : List Number) : Number :=
  ns.foldl (· + ·) zero

def compareFloats (x y : Float) : Option Ordering :=
  if x < y then some .lt else if x == y then some .eq else if y < x then some .gt else none

/-- Integers compare exactly and all else as floats; nothing compares with what is not a number. -/
def compare? : Number → Number → Option Ordering
  | .int x, .int y => some (compare x.toInt y.toInt)
  | a, b => compareFloats a.toFloat b.toFloat

def less (a b : Number) : Bool :=
  a.compare? b == some .lt

def same (a b : Number) : Bool :=
  a.compare? b == some .eq

def atMost (a b : Number) : Bool :=
  a.less b || a.same b

def text : Number → String
  | .int x => toString x.toInt
  | .float x => floatText x

end Number

end DiceNotation

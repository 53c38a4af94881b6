/-!
The exact value of a floating-point number. A finite float is `±mantissa · 2 ^ exponent`; rounding
to an integer and the remainder of a division are computed on that value.
-/

namespace DiceNotation

/-- The number `±mantissa · 2 ^ exponent`. -/
structure Binary where
  negative : Bool
  mantissa : Nat
  exponent : Int
  deriving DecidableEq

namespace Binary

def ofFloat? (x : Float) : Option Binary :=
  let bits := x.toBits.toNat
  let negative : Bool := bits / 0x8000000000000000 == 1
  let field : Nat := bits / 0x10000000000000 % 2048
  let fraction : Nat := bits % 0x10000000000000
  if field = 2047 then none
  else if field = 0 then some ⟨negative, fraction, -1074⟩
  else some ⟨negative, 0x10000000000000 + fraction, (field : Int) - 1075⟩

def signed (b : Binary) : Int :=
  if b.negative then -b.mantissa else b.mantissa

/-- The value as a fraction `numerator / denominator`. -/
def numerator (b : Binary) : Int :=
  b.signed * Nat.pow 2 b.exponent.toNat

def denominator (b : Binary) : Nat :=
  Nat.pow 2 (-b.exponent).toNat

def floor (b : Binary) : Int :=
  b.numerator / b.denominator

def ceil (b : Binary) : Int :=
  -(-b.numerator / b.denominator)

def trunc (b : Binary) : Int :=
  b.numerator.tdiv b.denominator

def round (b : Binary) : Int :=
  b.numerator.sign * ((2 * b.numerator.natAbs + b.denominator) / (2 * b.denominator) : Nat)

def power (e : Int) : Float :=
  if -1022 ≤ e then Float.ofBits (UInt64.ofNat ((e + 1023).toNat * 0x10000000000000))
  else Float.ofBits (UInt64.ofNat (Nat.pow 2 (e + 1074).toNat))

/-- The float with this value, exact when there is one. -/
def toFloat (b : Binary) : Float :=
  let magnitude := Float.ofNat b.mantissa * power b.exponent
  if b.negative then -magnitude else magnitude

def rem (a b : Binary) : Binary :=
  let e := min a.exponent b.exponent
  ⟨a.negative,
    (a.mantissa * Nat.pow 2 (a.exponent - e).toNat) %
      (b.mantissa * Nat.pow 2 (b.exponent - e).toNat), e⟩

end Binary

/-- The remainder of floats: exact where it exists, and not a number for an infinite dividend or a
zero divisor. -/
def floatRem (x y : Float) : Float :=
  match Binary.ofFloat? x, Binary.ofFloat? y with
  | some a, some b => if b.mantissa = 0 then 0.0 / 0.0 else (a.rem b).toFloat
  | some _, none => if y.isInf then x else 0.0 / 0.0
  | none, _ => 0.0 / 0.0

def floatRound (x : Float) : Float :=
  match Binary.ofFloat? x with
  | some b => if 0x10000000000000 ≤ b.round.natAbs then x else Float.ofInt b.round
  | none => x

end DiceNotation

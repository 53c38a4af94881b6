import DiceNotation.Number.Binary

/-!
Decimal text of floats. The digits written are the fewest that read back as the same float, and the
nearest to it among those; the point stands between the digits from `0.0001` up to `10 ^ 16`, and
outside of that range an exponent is written.
-/

namespace DiceNotation

/-- The number `digits · 10 ^ exponent`. -/
structure Decimal where
  digits : Nat
  exponent : Int
  deriving DecidableEq

namespace Decimal

/-- The reals that round to a positive float, as numerators over one denominator. The ends belong
to the interval when the mantissa is even. -/
structure Interval where
  low : Nat
  value : Nat
  high : Nat
  denominator : Nat
  closed : Bool

def interval (b : Binary) : Interval :=
  let scale := Nat.pow 2 b.exponent.toNat
  let below := if b.mantissa = 0x10000000000000 ∧ -1074 < b.exponent then 1 else 2
  { low := (4 * b.mantissa - below) * scale
    value := 4 * b.mantissa * scale
    high := (4 * b.mantissa + 2) * scale
    denominator := 4 * b.denominator
    closed := b.mantissa % 2 == 0 }

/-- How many digits stand before the point; negative when zeros follow the point. -/
def magnitude (i : Interval) : Int :=
  let whole := i.value / i.denominator
  if whole ≠ 0 then (Nat.toDigits 10 whole).length
  else -(leadingZeros 324 (i.value * 10) : Int)
where
  leadingZeros : Nat → Nat → Nat
    | 0, _ => 0
    | fuel + 1, n => if i.denominator ≤ n then 0 else leadingZeros fuel (n * 10) + 1

def Interval.contains (i : Interval) (d : Decimal) : Bool :=
  let n := d.digits * Nat.pow 10 d.exponent.toNat * i.denominator
  let scale := Nat.pow 10 (-d.exponent).toNat
  if i.closed then i.low * scale ≤ n && n ≤ i.high * scale
  else i.low * scale < n && n < i.high * scale

/-- The nearest of the two neighbours of the value on the grid of multiples of `10 ^ exponent`, if
the interval holds one. -/
def onGrid (i : Interval) (exponent : Int) : Option Decimal :=
  let n := i.value * Nat.pow 10 (-exponent).toNat
  let unit := i.denominator * Nat.pow 10 exponent.toNat
  let below : Decimal := ⟨n / unit, exponent⟩
  let above : Decimal := ⟨n / unit + 1, exponent⟩
  if i.contains below && (!i.contains above || 2 * (n % unit) < unit) then some below
  else if i.contains above then some above
  else none

def search (i : Interval) (size : Int) : Nat → Nat → Decimal
  | 0, count => (onGrid i (size - count)).getD ⟨0, 0⟩
  | fuel + 1, count => (onGrid i (size - count)).getD (search i size fuel (count + 1))

def stripZeros (d : Decimal) : Nat → Decimal
  | 0 => d
  | fuel + 1 =>
    if d.digits ≠ 0 ∧ d.digits % 10 = 0 then stripZeros ⟨d.digits / 10, d.exponent + 1⟩ fuel
    else d

def shortest (b : Binary) : Decimal :=
  let i := interval b
  stripZeros (search i (magnitude i) 17 1) 17

def write (d : Decimal) : String :=
  let digits := Nat.toDigits 10 d.digits
  let point := digits.length + d.exponent
  if -4 < point ∧ point ≤ 16 then
    if point ≤ 0 then
      "0." ++ String.ofList (List.replicate point.natAbs '0' ++ digits)
    else if point < digits.length then
      String.ofList (digits.take point.toNat ++ '.' :: digits.drop point.toNat)
    else
      String.ofList (digits ++ List.replicate (point - digits.length).toNat '0') ++ ".0"
  else
    let fraction := if digits.length ≤ 1 then [] else '.' :: digits.drop 1
    String.ofList (digits.take 1 ++ fraction) ++ "e" ++ toString (point - 1)

def toFloat (d : Decimal) : Float :=
  Float.ofScientific d.digits (d.exponent < 0) d.exponent.natAbs

def digitValue (c : Char) : Nat :=
  c.toNat - '0'.toNat

def natOfDigits (cs : List Char) : Nat :=
  cs.foldl (fun n c => 10 * n + digitValue c) 0

def intOfDigits : List Char → Int
  | '-' :: cs => -natOfDigits cs
  | '+' :: cs => natOfDigits cs
  | cs => natOfDigits cs

def ofDigits (whole fraction : List Char) : Decimal :=
  ⟨natOfDigits (whole ++ fraction), -fraction.length⟩

def ofText (cs : List Char) : Decimal :=
  let isMark := fun c : Char => c == 'e' || c == 'E'
  let mantissa := cs.takeWhile fun c => !isMark c
  let exponent := intOfDigits ((cs.dropWhile fun c => !isMark c).drop 1)
  let d := ofDigits (mantissa.takeWhile Char.isDigit) ((mantissa.dropWhile Char.isDigit).drop 1)
  ⟨d.digits, d.exponent + exponent⟩

end Decimal

def floatOfText (text : String) : Float :=
  match text.toList with
  | ['N', 'a', 'N'] => 0.0 / 0.0
  | ['i', 'n', 'f'] => 1.0 / 0.0
  | ['-', 'i', 'n', 'f'] => -1.0 / 0.0
  | '-' :: cs => -(Decimal.ofText cs).toFloat
  | cs => (Decimal.ofText cs).toFloat

/-- The text of a float: it reads back as the same float. -/
def floatText (x : Float) : String :=
  match Binary.ofFloat? x with
  | none => if x.isNaN then "NaN" else if x < 0 then "-inf" else "inf"
  | some b =>
    let sign := if b.negative then "-" else ""
    if b.mantissa = 0 then sign ++ "0.0" else sign ++ (Decimal.shortest b).write

end DiceNotation

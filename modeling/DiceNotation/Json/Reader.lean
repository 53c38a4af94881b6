import DiceNotation.Json.Basic
import DiceNotation.Text.Bytes

/-!
Reading JSON text. Arrays and objects nest at most 127 deep. A number with a fraction or an exponent
keeps as many digits as 64 bits hold and is then scaled once by a power of ten.
-/

namespace DiceNotation.Json

abbrev Reader := StateT (List Char) (Except Flaw)

namespace Reader

def isBlank (c : Char) : Bool :=
  c == ' ' || c == '\n' || c == '\t' || c == '\r'

def skipBlanks : Reader Unit :=
  modify (List.dropWhile isBlank)

def peek : Reader Char := do
  match ← get with
  | [] => throw .unfinished
  | c :: _ => pure c

def next : Reader Char := do
  match ← get with
  | [] => throw .unfinished
  | c :: rest => set rest; pure c

def accept (p : Char → Bool) : Reader Bool := do
  match ← get with
  | c :: rest => if p c then set rest; pure true else pure false
  | [] => pure false

def expect (c : Char) : Reader Unit := do
  if (← next) ≠ c then throw .malformed

def takeDigits : Reader (List Char) := do
  let cs ← get
  set (cs.dropWhile Char.isDigit)
  pure (cs.takeWhile Char.isDigit)

def hexDigit? (c : Char) : Option Nat :=
  if c.isDigit then some (c.toNat - '0'.toNat)
  else if 'a' ≤ c ∧ c ≤ 'f' then some (c.toNat - 'a'.toNat + 10)
  else if 'A' ≤ c ∧ c ≤ 'F' then some (c.toNat - 'A'.toNat + 10)
  else none

/-- Four hexadecimal digits. The text ends too soon if fewer than four bytes of it are left. -/
def hexUnit : Reader Nat := do
  let cs ← get
  if Text.byteLength (cs.take 4) < 4 then throw .unfinished
  match (cs.take 4).mapM hexDigit? with
  | some [a, b, c, d] =>
    set (cs.drop 4)
    pure (((a * 16 + b) * 16 + c) * 16 + d)
  | _ => throw .malformed

/-- A character written by its number, above `FFFF` as a pair of surrogates. -/
def unicodeEscape : Reader Char := do
  let high ← hexUnit
  if 0xDC00 ≤ high ∧ high ≤ 0xDFFF then throw .malformed
  if 0xD800 ≤ high ∧ high ≤ 0xDBFF then
    expect '\\'
    expect 'u'
    let low ← hexUnit
    if low < 0xDC00 ∨ 0xDFFF < low then throw .malformed
    pure (Char.ofNat ((high - 0xD800) * 0x400 + (low - 0xDC00) + 0x10000))
  else
    pure (Char.ofNat high)

def escape : Reader Char := do
  match ← next with
  | '"' => pure '"'
  | '\\' => pure '\\'
  | '/' => pure '/'
  | 'b' => pure '\x08'
  | 'f' => pure '\x0c'
  | 'n' => pure '\n'
  | 'r' => pure '\r'
  | 't' => pure '\t'
  | 'u' => unicodeEscape
  | _ => throw .malformed

def stringRest : Nat → Reader (List Char)
  | 0 => throw .unfinished
  | fuel + 1 => do
    match ← next with
    | '"' => pure []
    | '\\' =>
      let c ← escape
      return c :: (← stringRest fuel)
    | c =>
      if c < ' ' then throw .malformed
      return c :: (← stringRest fuel)

def string : Reader String := do
  expect '"'
  String.ofList <$> stringRest ((← get).length + 1)

def significandLimit : Nat := 0xffffffffffffffff

/-- Takes in digits before the point while the limit allows, and counts those left out. -/
def wholeDigits (significand : Nat) : List Char → Nat × Nat
  | [] => (significand, 0)
  | c :: rest =>
    let n := 10 * significand + Decimal.digitValue c
    if n ≤ significandLimit then wholeDigits n rest else (significand, rest.length + 1)

def fractionDigits (significand : Nat) : List Char → Nat × Nat
  | [] => (significand, 0)
  | c :: rest =>
    let n := 10 * significand + Decimal.digitValue c
    if n ≤ significandLimit then
      let (m, count) := fractionDigits n rest
      (m, count + 1)
    else (significand, 0)

def powerOfTen (n : Nat) : Float :=
  Float.ofScientific 1 false n

/-- Divides by a power of ten, at most `10 ^ 308` at a time. -/
def scaleDown (x : Float) (n : Nat) : Nat → Float
  | 0 => x
  | fuel + 1 =>
    if n ≤ 308 then x / powerOfTen n
    else if x == 0 then x
    else scaleDown (x / powerOfTen 308) (n - 308) fuel

def scale (negative : Bool) (significand : Nat) (exponent : Int) : Reader Json := do
  let x := Float.ofNat significand
  let magnitude ←
    if exponent < 0 then pure (scaleDown x exponent.natAbs 3)
    else if exponent ≤ 308 then
      let y := x * powerOfTen exponent.toNat
      if y.isInf then throw .malformed else pure y
    else if x == 0 then pure x
    else throw .malformed
  pure (.float (if negative then -magnitude else magnitude))

def exponentLimit : Nat := 0x7fffffff

/-- The exponent of a number after its mark. One too large makes zero of a number that it moves
below the point. -/
def exponentPart (negative : Bool) (significand : Nat) (exponent : Int) : Reader Json := do
  let plus ← accept (· == '+')
  let minus ← if plus then pure false else accept (· == '-')
  let c ← peek
  if !c.isDigit then throw .malformed
  let n := Decimal.natOfDigits (← takeDigits)
  if n ≤ exponentLimit then
    scale negative significand (if minus then exponent - n else exponent + n)
  else if significand ≠ 0 ∧ !minus then throw .malformed
  else scale negative 0 0

/-- A number without fraction and exponent; a negative zero and an integer out of range are
floats. -/
def plain (negative : Bool) (significand : Nat) : Json :=
  if negative then
    if significand = 0 ∨ 0x8000000000000000 < significand then .float (-Float.ofNat significand)
    else .integer (-significand)
  else .integer significand

def isExponentMark (c : Char) : Bool :=
  c == 'e' || c == 'E'

def number : Reader Json := do
  let negative ← accept (· == '-')
  let c ← peek
  if !c.isDigit then throw .malformed
  let whole ← takeDigits
  if c == '0' ∧ whole.length ≠ 1 then throw .malformed
  let (significand, dropped) := wholeDigits 0 whole
  if ← accept (· == '.') then
    let d ← peek
    if !d.isDigit then throw .malformed
    let (significand, taken) := fractionDigits significand (← takeDigits)
    let exponent : Int := dropped - taken
    if ← accept isExponentMark then exponentPart negative significand exponent
    else scale negative significand exponent
  else if ← accept isExponentMark then exponentPart negative significand dropped
  else if dropped = 0 then pure (plain negative significand)
  else scale negative significand dropped

def literal (rest : List Char) (v : Json) : Reader Json := do
  rest.forM expect
  pure v

def itemsRest (item : Reader Json) : Nat → Bool → Reader (List Json)
  | 0, _ => throw .unfinished
  | fuel + 1, first => do
    skipBlanks
    let c ← peek
    if c == ']' then
      let _ ← next
      return []
    if !first then
      if c ≠ ',' then throw .malformed
      let _ ← next
      skipBlanks
      if (← peek) == ']' then throw .malformed
    let v ← item
    return v :: (← itemsRest item fuel false)

/-- The fields of an object after its opening brace. What follows a key is read by `field`, which
knows the fields before it, the last one first. -/
def fieldsRest {α : Type} (field : List α → String → Reader α) :
    Nat → List α → Reader (List α)
  | 0, _ => throw .unfinished
  | fuel + 1, before => do
    skipBlanks
    let c ← peek
    if c == '}' then return before.reverse
    if !before.isEmpty then
      if c ≠ ',' then throw .malformed
      let _ ← next
      skipBlanks
    if (← peek) ≠ '"' then throw .malformed
    let key ← string
    let v ← field before key
    fieldsRest field fuel (v :: before)

def colon : Reader Unit := do
  skipBlanks
  expect ':'

def keyed (item : Reader Json) (key : String) : Reader (String × Json) := do
  colon
  return (key, ← item)

def valueWith (array object : Reader Json) : Reader Json := do
  skipBlanks
  let c ← peek
  if c == '"' then return .string (← string)
  if c == '-' || c.isDigit then return ← number
  let _ ← next
  match c with
  | 'n' => literal ['u', 'l', 'l'] .null
  | 't' => literal ['r', 'u', 'e'] (.bool true)
  | 'f' => literal ['a', 'l', 's', 'e'] (.bool false)
  | '[' => array
  | '\x7b' => object
  | _ => throw .malformed

/-- A value whose arrays and objects nest at most as deep as given. -/
def value : Nat → Reader Json
  | 0 => valueWith (throw .malformed) (throw .malformed)
  | depth + 1 =>
    valueWith
      (do return .array (← itemsRest (value depth) ((← get).length + 1) true))
      (do
        let fields ← fieldsRest (fun _ => keyed (value depth)) ((← get).length + 1) []
        let _ ← next
        return .object fields)

/-- Reads a value only to refuse it: a text that is not JSON shows first, but not inside of an array
or an object. -/
def refuse {α : Type} : Reader α := do
  let _ ← valueWith (throw .unfit) (throw .unfit)
  throw .unfit

def accepted {α : Type} (read : Reader Json) (f : Json → Option α) : Reader α := do
  match f (← read) with
  | some a => pure a
  | none => throw .unfit

def depthLimit : Nat := 127

def finish : Reader Unit := do
  skipBlanks
  if !(← get).isEmpty then throw .malformed

def run {α : Type} (read : Reader α) (s : String) : Except Flaw α :=
  (do let v ← read; finish; pure v : Reader α).run' s.toList

end Reader

def read (s : String) : Except Flaw Json :=
  (Reader.value Reader.depthLimit).run s

def readNumber (s : String) : Except Flaw Number :=
  (Reader.accepted (Reader.value Reader.depthLimit) number?).run s

def readWord (α : Type) [Word α] (s : String) : Except Flaw α :=
  flip Reader.run s do
    Reader.skipBlanks
    match ← Reader.peek with
    | '"' => Reader.accepted (.string <$> Reader.string) word?
    | '\x7b' =>
      let _ ← Reader.next
      Reader.skipBlanks
      if (← Reader.peek) ≠ '"' then Reader.refuse
      let w ← Reader.accepted (.string <$> Reader.string) word?
      Reader.colon
      Reader.skipBlanks
      if (← Reader.peek) ≠ 'n' then Reader.refuse
      let _ ← Reader.value 0
      Reader.skipBlanks
      if (← Reader.next) ≠ '\x7d' then throw .malformed
      pure w
    | _ => throw .malformed

end DiceNotation.Json

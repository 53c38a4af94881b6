import DiceNotation.Text.Bytes
import DiceNotation.Token.Basic

/-!
Cutting a text into tokens. Each token is the longest prefix of the rest of the text that some kind
spells; blanks stand between tokens and belong to none. Where no kind fits, an error covers one
character, or a bracket that is never closed together with what it would have enclosed. A rule gives
the length of the longest prefix that it matches, or zero.
-/

namespace DiceNotation.Token

def isBlank (c : Char) : Bool :=
  c == ' ' || c == '\t' || c == '\r' || c == '\n'

def isNameStart (c : Char) : Bool :=
  c.isAlpha || c == '_'

def isNameRest (c : Char) : Bool :=
  c.isAlphanum || c == '_'

def isBracket (c : Char) : Bool :=
  c == '[' || c == ']'

def fixedLength (spelling : List Char) (cs : List Char) : Nat :=
  if spelling.isPrefixOf cs then spelling.length else 0

def digitRun (cs : List Char) : Nat :=
  (cs.takeWhile Char.isDigit).length

def decimalLength (cs : List Char) : Nat :=
  match cs.dropWhile Char.isDigit with
  | '.' :: rest => if digitRun rest = 0 then 0 else digitRun cs + 1 + digitRun rest
  | _ => 0

def replacementLength : List Char → Nat
  | '@' :: c :: rest => if isNameStart c then (rest.takeWhile isNameRest).length + 2 else 0
  | _ => 0

def labelLength : List Char → Nat
  | '[' :: rest =>
    match rest.dropWhile fun c => !isBracket c with
    | ']' :: _ => (rest.takeWhile fun c => !isBracket c).length + 2
    | _ => 0
  | _ => 0

def rules : List (Kind × (List Char → Nat)) :=
  (Kind.spellings.map fun s => (s.1, fixedLength s.2.toList)) ++
    [(.integer, digitRun), (.decimal, decimalLength), (.replacement, replacementLength),
      (.label, labelLength)]

/-- The longer of two matches, the first one if they are equal. -/
def longer (a b : Kind × Nat) : Kind × Nat :=
  if a.2 < b.2 then b else a

/-- How many characters an error covers. -/
def errorLength : List Char → Nat
  | '[' :: rest => (rest.takeWhile fun c => !isBracket c).length + 1
  | _ => 1

def lexeme (cs : List Char) : Kind × Nat :=
  let best := (rules.map fun r => (r.1, r.2 cs)).foldl longer (.error, 0)
  if best.2 = 0 then (.error, errorLength cs) else best

/-- The tokens of a text that starts at a given byte. -/
def scanFrom : Nat → Nat → List Char → List Token
  | 0, _, _ => []
  | _ + 1, _, [] => []
  | fuel + 1, start, c :: rest =>
    if isBlank c then scanFrom fuel (start + c.utf8Size) rest
    else
      let (kind, length) := lexeme (c :: rest)
      let text := (c :: rest).take length
      let stop := start + Text.byteLength text
      ⟨kind, start, stop, text⟩ :: scanFrom fuel stop ((c :: rest).drop length)

def scan (cs : List Char) : List Token :=
  scanFrom cs.length 0 cs

end DiceNotation.Token

import DiceNotation.Vocabulary

/-!
JSON values. An object keeps its fields in order, repeated ones included, and an integer stays apart
from a float.
-/

namespace DiceNotation

inductive Json where
  | null
  | bool (value : Bool)
  | integer (value : Int)
  | float (value : Float)
  | string (value : String)
  | array (items : List Json)
  | object (fields : List (String × Json))

namespace Json

instance : Inhabited Json := ⟨.null⟩

/-- Why a text could not be read: it ends too soon, it is not JSON, or its value is of another
form than the one asked for. -/
inductive Flaw where
  | unfinished
  | malformed
  | unfit
  deriving DecidableEq

def ofNumber : Number → Json
  | .int x => .integer x.toInt
  | .float x => .float x

/-- An integer of 64 bits stays an integer and any other number is a float. -/
def number? : Json → Option Number
  | .integer i => some (.ofInt i)
  | .float x => some (.float x)
  | _ => none

def string? : Json → Option String
  | .string s => some s
  | _ => none

def bool? : Json → Option Bool
  | .bool b => some b
  | _ => none

def ofWord {α : Type} [Word α] (w : α) : Json :=
  .string (Word.name w)

/-- A name alone, or an object with the name as its one key and nothing under it. -/
def word? {α : Type} [Word α] : Json → Option α
  | .string s => Word.ofName? s
  | .object [(s, .null)] => Word.ofName? s
  | .object [(s, .object [])] => Word.ofName? s
  | _ => none

def present (key : String) : Option Json → List (String × Json)
  | some v => [(key, v)]
  | none => []

def nonempty (key : String) : List Json → List (String × Json)
  | [] => []
  | items => [(key, .array items)]

end Json

end DiceNotation

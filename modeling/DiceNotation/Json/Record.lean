import DiceNotation.Json.Basic

/-!
Records in JSON. A record is an object, where fields that it does not know are passed over and no
field that it knows may stand twice, or an array of its fields in order, where the last ones may be
left out.
-/

namespace DiceNotation.Json

/-- The value under a key, none if the key is absent; no answer if it stands there twice. -/
def field? (key : String) (fields : List (String × Json)) : Option (Option Json) :=
  match fields.filter fun f => f.1 == key with
  | [] => some none
  | [(_, v)] => some (some v)
  | _ => none

inductive Record where
  | named (fields : List (String × Json))
  | listed (items : List Json)

namespace Record

/-- The record of a type with `size` fields that a value stands for. -/
def ofJson? (size : Nat) : Json → Option Record
  | .object fields => some (.named fields)
  | .array items => if items.length ≤ size then some (.listed items) else none
  | _ => none

def get? (r : Record) (place : Nat) (key : String) : Option (Option Json) :=
  match r with
  | .named fields => field? key fields
  | .listed items => some items[place]?

def required {α : Type} (r : Record) (place : Nat) (key : String) (f : Json → Option α) :
    Option α := do
  (← r.get? place key).bind f

def optional {α : Type} (r : Record) (place : Nat) (key : String) (absent : α)
    (f : Json → Option α) : Option α := do
  match ← r.get? place key with
  | some v => f v
  | none => some absent

def nullable {α : Type} (r : Record) (place : Nat) (key : String) (f : Json → Option α) :
    Option (Option α) := do
  match ← r.get? place key with
  | none | some .null => some none
  | some v => (f v).map some

end Record

def list? {α : Type} (f : Json → Option α) : Json → Option (List α)
  | .array items => items.mapM f
  | _ => none

end DiceNotation.Json

import DiceNotation.Formula.Basic
import DiceNotation.Json.Reader
import DiceNotation.Json.Record

/-!
Formulas from JSON. A type is given by its name or by its place in the list of types; a type that
is not in the list makes a formula or a modifier that cannot be rolled. What stands inside of a
formula is read by the function `inner`, which `ofJson?` closes over itself.
-/

namespace DiceNotation

namespace Formula.Decode

open Json (Record)

/-- The type that a value names. A type out of the list is the last one of all. -/
def type? (names : List String) : Json → Option Nat
  | .string s => some (names.findIdx (· == s))
  | .integer i => if i < 0 then none else some (min i.toNat names.length)
  | _ => none

section

variable (inner : Json → Option Formula)

def faces? : Json → Option (Faces Formula)
  | .object [("sides", v)] => .sides <$> inner v
  | .string "fate" | .object [("fate", .null)] | .object [("fate", .object [])] => some .fate
  | _ => none

def targetOf (r : Record) : Option (Target Formula) := do
  let relation ← r.optional 0 "mod" .equal Json.word?
  let value ← r.required 1 "expr" inner
  return ⟨relation, value⟩

def target? (v : Json) : Option (Target Formula) := do
  targetOf inner (← Record.ofJson? 2 v)

def keepDropOf (make : Extreme → Formula → Modifier Formula) (r : Record) :
    Option (Modifier Formula) := do
  let extreme ← r.required 0 "highlow" Json.word?
  let count ← r.required 1 "expr" inner
  return make extreme count

def explodeOf (r : Record) : Option (Modifier Formula) := do
  let mode ← r.optional 0 "mode" .explode Json.word?
  let target ← r.nullable 1 "target" (target? inner)
  return .explode mode target

def rerollOf (r : Record) : Option (Modifier Formula) := do
  let once ← r.optional 0 "once" false Json.bool?
  let target ← r.nullable 1 "target" (target? inner)
  return .reroll once target

def modifierNames : List String :=
  ["keep", "drop", "success", "failure", "crit", "critfail", "explode", "reroll"]

def modifierOf (r : Record) : Nat → Option (Modifier Formula)
  | 0 => keepDropOf inner .keep r
  | 1 => keepDropOf inner .drop r
  | 2 => .success <$> targetOf inner r
  | 3 => .failure <$> targetOf inner r
  | 4 => .critical <$> targetOf inner r
  | 5 => .criticalFailure <$> targetOf inner r
  | 6 => explodeOf inner r
  | 7 => rerollOf inner r
  | _ =>
    match r with
    | .listed (_ :: _) => none
    | _ => some .unknown

/-- A modifier: an object with a type, or an array with the type in front. -/
def modifier? : Json → Option (Modifier Formula)
  | .object fields => do
    let type ← type? modifierNames (← ← Json.field? "type" fields)
    modifierOf inner (.named fields) type
  | .array (t :: items) => do
    let type ← type? modifierNames t
    if 2 < items.length then none else modifierOf inner (.listed items) type
  | _ => none

def matching? (v : Json) : Option (Matching Formula) := do
  let r ← Record.ofJson? 3 v
  let least ← r.required 0 "min" inner
  let counted ← r.optional 1 "count" false Json.bool?
  let filter ← r.nullable 2 "target" (target? inner)
  return ⟨least, counted, filter⟩

def operation? (ω : Type) [Word ω] (v : Json) : Option (ω × Formula) := do
  let r ← Record.ofJson? 2 v
  return (← r.required 0 "op" Json.word?, ← r.required 1 "tail" inner)

def dieOf (r : Record) : Option (Die Formula) := do
  let count ← r.required 0 "count" inner
  let faces ← r.required 1 "die" (faces? inner)
  let mods ← r.optional 2 "mods" [] (Json.list? (modifier? inner))
  let targets ← r.optional 3 "targets" [] (Json.list? (modifier? inner))
  let matching ← r.nullable 4 "match" (matching? inner)
  let sorting ← r.nullable 5 "sort" Json.word?
  return ⟨count, faces, mods, targets, matching, sorting⟩

def shapeNames : List String :=
  ["number", "die", "diceexpr", "expression", "group", "mathfunction", "replacement", "inline"]

def shapeOf (r : Record) : Nat → Option Shape
  | 0 => .number <$> r.required 0 "value" Json.number?
  | 1 => .die <$> dieOf inner r
  | 2 => do
    let head ← r.required 0 "head" inner
    return .diceSum head (← r.optional 1 "ops" [] (Json.list? (operation? inner Sign)))
  | 3 => do
    let head ← r.required 0 "head" inner
    return .arithmetic head (← r.optional 1 "ops" [] (Json.list? (operation? inner Operator)))
  | 4 => do
    match ← r.required 0 "rolls" (Json.list? inner) with
    | [] => none
    | first :: others =>
      return .group first others (← r.optional 1 "mods" [] (Json.list? (modifier? inner)))
  | 5 => do
    let f ← r.required 0 "op" Json.word?
    return .function f (← r.required 1 "expr" inner)
  | 6 => do
    let name ← r.required 0 "name" Json.string?
    return .replacement name (← r.required 1 "expr" inner)
  | 7 => .inline <$> r.required 0 "expr" inner
  | _ => some .unknown

def formulaOf (fields : List (String × Json)) : Option Formula := do
  let label ← (Record.named fields).nullable 0 "label" Json.string?
  let type ← type? shapeNames (← ← Json.field? "type" fields)
  let shape ← shapeOf inner (.named fields) type
  return ⟨shape, label⟩

end

end Formula.Decode

def Formula.ofJson? : Nat → Json → Option Formula
  | depth + 1, .object fields => Decode.formulaOf (ofJson? depth) fields
  | _, _ => none

namespace Formula.Decode

open Json (Reader)

/-- A label is looked at as soon as it is read, and any other field when all are. -/
def field (before : List (String × Json)) (key : String) : Reader (String × Json) := do
  if key = "label" then
    if before.any fun f => f.1 == "label" then throw .unfit
    Reader.colon
    Reader.skipBlanks
    let c ← Reader.peek
    if c ≠ 'n' ∧ c ≠ '"' then Reader.refuse
    return (key, ← Reader.value 0)
  else Reader.keyed (Reader.value (Reader.depthLimit - 1)) key

def reader : Reader Formula := do
  Reader.skipBlanks
  if (← Reader.peek) ≠ '\x7b' then Reader.refuse
  let _ ← Reader.next
  let fields ← Reader.fieldsRest field ((← get).length + 1) []
  match Formula.ofJson? Reader.depthLimit (.object fields) with
  | some f =>
    let _ ← Reader.next
    pure f
  | none => throw .unfit

end Formula.Decode

def Formula.readJson (text : String) : Except Json.Flaw Formula :=
  Formula.Decode.reader.run text

end DiceNotation

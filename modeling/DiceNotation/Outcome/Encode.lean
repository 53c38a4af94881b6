import DiceNotation.Json.Basic
import DiceNotation.Outcome.Basic

/-!
Outcomes as JSON, and as the list of their parts.
-/

namespace DiceNotation

def Status.fields (s : Status) : List (String × Json) := [
  ("value", .ofNumber s.value),
  ("valid", .bool s.valid),
  ("successes", .integer s.successes),
  ("failures", .integer s.failures),
  ("success", (s.success.map Json.bool).getD .null),
  ("order", .integer s.order)]

def Faces.toJson : Faces Int64 → Json
  | .sides count => .object [("standard", .integer count.toInt)]
  | .fate => .string "fate"

def Throw.toJson (t : Throw) : Json :=
  .object ([("type", .string "roll"), ("die", t.faces.toJson), ("roll", .integer t.face.toInt)]
    ++ Json.present "critical" (t.critical.map Json.ofWord)
    ++ [("matched", .bool t.matched), ("drop", .bool t.status.dropped),
      ("reroll", .bool t.rerolled), ("explode", .bool t.exploded)]
    ++ t.status.fields)

namespace Outcome

mutual
def toJson : Outcome → Json
  | ⟨status, body, label⟩ =>
    .object (bodyFields body ++ status.fields ++ Json.present "label" (label.map .string))

def bodyFields : Body → List (String × Json)
  | .number => [("type", .string "number")]
  | .die count faces throws =>
    [("type", .string "die"), ("count", count.toJson)]
      ++ Json.present "faces" (facesToJson faces)
      ++ [("rolls", .array (throws.map Throw.toJson))]
  | .diceSum head tail =>
    [("type", .string "diceexpr"), ("head", head.toJson), ("ops", .array (diceTailToJson tail))]
  | .arithmetic head tail =>
    [("type", .string "expression"), ("head", head.toJson), ("ops", .array (mathTailToJson tail))]
  | .group members => [("type", .string "group"), ("rolls", .array (membersToJson members))]
  | .function f argument =>
    [("type", .string "mathfunction"), ("op", .ofWord f), ("expr", argument.toJson)]
  | .replacement name argument =>
    [("type", .string "replacement"), ("name", .string name), ("expr", argument.toJson)]

def facesToJson : Option Outcome → Option Json
  | none => none
  | some o => some o.toJson

def diceTailToJson : List (Sign × Outcome) → List Json
  | [] => []
  | (op, o) :: rest => .object [("op", .ofWord op), ("tail", o.toJson)] :: diceTailToJson rest

def mathTailToJson : List (Operator × Outcome) → List Json
  | [] => []
  | (op, o) :: rest => .object [("op", .ofWord op), ("tail", o.toJson)] :: mathTailToJson rest

def membersToJson : List Outcome → List Json
  | [] => []
  | o :: os => o.toJson :: membersToJson os
end

/-- A part of an outcome: what it is called, the number that it shows, and whether it is a
throw. -/
structure Part where
  name : String
  shown : Number
  isThrow : Bool

def Part.ofThrow (t : Throw) : Part :=
  ⟨"roll", .int t.face, true⟩

mutual
/-- The parts of an outcome, each before those that it is made of. -/
def parts : Outcome → List Part
  | ⟨status, body, _⟩ =>
    let (name, inside) := bodyParts body
    ⟨name, status.value, false⟩ :: inside

def bodyParts : Body → String × List Part
  | .number => ("number", [])
  | .die count faces throws => ("die", count.parts ++ facesParts faces ++ throws.map Part.ofThrow)
  | .diceSum head tail => ("dice expression", head.parts ++ diceTailParts tail)
  | .arithmetic head tail => ("expression", head.parts ++ mathTailParts tail)
  | .group members => ("group", memberParts members)
  | .function _ argument => ("math function", argument.parts)
  | .replacement _ argument => ("replacement", argument.parts)

def facesParts : Option Outcome → List Part
  | none => []
  | some o => o.parts

def diceTailParts : List (Sign × Outcome) → List Part
  | [] => []
  | (_, o) :: rest => o.parts ++ diceTailParts rest

def mathTailParts : List (Operator × Outcome) → List Part
  | [] => []
  | (_, o) :: rest => o.parts ++ mathTailParts rest

def memberParts : List Outcome → List Part
  | [] => []
  | o :: os => o.parts ++ memberParts os
end

end Outcome

end DiceNotation

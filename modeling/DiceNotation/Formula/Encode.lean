import DiceNotation.Formula.Basic
import DiceNotation.Json.Basic

/-!
Formulas as JSON. Every formula and every modifier is an object with a `type`; lists that are empty
and parts that are absent are left out.
-/

namespace DiceNotation

mutual
def Formula.toJson : Formula → Json
  | ⟨shape, label⟩ => .object (shape.fields ++ Json.present "label" (label.map .string))

def Shape.fields : Shape → List (String × Json)
  | .number n => [("type", .string "number"), ("value", .ofNumber n)]
  | .die ⟨count, faces, mods, targets, matching, sorting⟩ =>
    [("type", .string "die"), ("count", count.toJson), ("die", facesToJson faces)]
      ++ Json.nonempty "mods" (modsToJson mods)
      ++ Json.nonempty "targets" (modsToJson targets)
      ++ Json.present "match" (matchingToJson matching)
      ++ Json.present "sort" (sorting.map Json.ofWord)
  | .diceSum head tail =>
    [("type", .string "diceexpr"), ("head", head.toJson), ("ops", .array (diceTailToJson tail))]
  | .arithmetic head tail =>
    [("type", .string "expression"), ("head", head.toJson), ("ops", .array (mathTailToJson tail))]
  | .group first others mods =>
    [("type", .string "group"), ("rolls", .array (first.toJson :: membersToJson others))]
      ++ Json.nonempty "mods" (modsToJson mods)
  | .function f argument =>
    [("type", .string "mathfunction"), ("op", .ofWord f), ("expr", argument.toJson)]
  | .replacement name argument =>
    [("type", .string "replacement"), ("name", .string name), ("expr", argument.toJson)]
  | .inline inner => [("type", .string "inline"), ("expr", inner.toJson)]
  | .unknown => [("type", .string "unsupported")]

def facesToJson : Faces Formula → Json
  | .fate => .string "fate"
  | .sides count => .object [("sides", count.toJson)]

def targetFields : Target Formula → List (String × Json)
  | ⟨relation, value⟩ => [("mod", .ofWord relation), ("expr", value.toJson)]

def targetToJson : Option (Target Formula) → Option Json
  | none => none
  | some t => some (.object (targetFields t))

def modToJson : Modifier Formula → Json
  | .keep extreme count =>
    .object [("type", .string "keep"), ("highlow", .ofWord extreme), ("expr", count.toJson)]
  | .drop extreme count =>
    .object [("type", .string "drop"), ("highlow", .ofWord extreme), ("expr", count.toJson)]
  | .success target => .object (("type", .string "success") :: targetFields target)
  | .failure target => .object (("type", .string "failure") :: targetFields target)
  | .critical target => .object (("type", .string "crit") :: targetFields target)
  | .criticalFailure target => .object (("type", .string "critfail") :: targetFields target)
  | .explode mode target =>
    .object ([("type", .string "explode"), ("mode", .ofWord mode)]
      ++ Json.present "target" (targetToJson target))
  | .reroll once target =>
    .object ([("type", .string "reroll"), ("once", .bool once)]
      ++ Json.present "target" (targetToJson target))
  | .unknown => .object [("type", .string "unsupported")]

def modsToJson : List (Modifier Formula) → List Json
  | [] => []
  | m :: ms => modToJson m :: modsToJson ms

def matchingToJson : Option (Matching Formula) → Option Json
  | none => none
  | some ⟨least, counted, filter⟩ =>
    some (.object ([("min", least.toJson), ("count", .bool counted)]
      ++ Json.present "target" (targetToJson filter)))

def diceTailToJson : List (Sign × Formula) → List Json
  | [] => []
  | (op, f) :: rest => .object [("op", .ofWord op), ("tail", f.toJson)] :: diceTailToJson rest

def mathTailToJson : List (Operator × Formula) → List Json
  | [] => []
  | (op, f) :: rest => .object [("op", .ofWord op), ("tail", f.toJson)] :: mathTailToJson rest

def membersToJson : List Formula → List Json
  | [] => []
  | f :: fs => f.toJson :: membersToJson fs
end

end DiceNotation

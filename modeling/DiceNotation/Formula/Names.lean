import DiceNotation.Formula.Basic

/-!
The names of the replacements in a formula, in the order in which they are first met.
-/

namespace DiceNotation

mutual
/-- The names of all replacements, repeated ones included. -/
def Formula.names : Formula → List String
  | ⟨shape, _⟩ => shape.names

def Shape.names : Shape → List String
  | .number _ => []
  | .die ⟨count, faces, mods, targets, matching, _⟩ =>
    count.names ++ facesNames faces ++ modsNames mods ++ modsNames targets ++ matchingNames matching
  | .diceSum head tail => head.names ++ diceTailNames tail
  | .arithmetic head tail => head.names ++ mathTailNames tail
  | .group first others mods => first.names ++ membersNames others ++ modsNames mods
  | .function _ argument => argument.names
  | .replacement name argument => name :: argument.names
  | .inline inner => inner.names
  | .unknown => []

def facesNames : Faces Formula → List String
  | .fate => []
  | .sides count => count.names

def targetNames : Option (Target Formula) → List String
  | none => []
  | some ⟨_, value⟩ => value.names

def modNames : Modifier Formula → List String
  | .keep _ count => count.names
  | .drop _ count => count.names
  | .success ⟨_, value⟩ => value.names
  | .failure ⟨_, value⟩ => value.names
  | .critical ⟨_, value⟩ => value.names
  | .criticalFailure ⟨_, value⟩ => value.names
  | .explode _ target => targetNames target
  | .reroll _ target => targetNames target
  | .unknown => []

def modsNames : List (Modifier Formula) → List String
  | [] => []
  | m :: ms => modNames m ++ modsNames ms

def matchingNames : Option (Matching Formula) → List String
  | none => []
  | some ⟨least, _, filter⟩ => least.names ++ targetNames filter

def diceTailNames : List (Sign × Formula) → List String
  | [] => []
  | (_, f) :: rest => f.names ++ diceTailNames rest

def mathTailNames : List (Operator × Formula) → List String
  | [] => []
  | (_, f) :: rest => f.names ++ mathTailNames rest

def membersNames : List Formula → List String
  | [] => []
  | f :: fs => f.names ++ membersNames fs
end

def addName (names : List String) (name : String) : List String :=
  if names.contains name then names else names ++ [name]

/-- The names to resolve before a formula is rolled, each once. -/
def Formula.replacements (f : Formula) : List String :=
  f.names.foldl addName []

end DiceNotation

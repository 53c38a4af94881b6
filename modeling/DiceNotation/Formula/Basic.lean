import DiceNotation.Faces
import DiceNotation.Vocabulary

/-!
Formulas: what is to be rolled and how it is to be counted. The parts of a die and its modifiers
take their numbers from any type, so that the same modifier can hold a formula or the number that
it came to.
-/

namespace DiceNotation

structure Target (α : Type) where
  relation : Relation
  value : α

/-- A stage that entries go through after they are thrown. -/
inductive Modifier (α : Type) where
  | keep (extreme : Extreme) (count : α)
  | drop (extreme : Extreme) (count : α)
  | success (target : Target α)
  | failure (target : Target α)
  | critical (target : Target α)
  | criticalFailure (target : Target α)
  | explode (mode : Explosion) (target : Option (Target α))
  | reroll (once : Bool) (target : Option (Target α))
  | unknown

/-- Looking for faces that are shown at least so many times. -/
structure Matching (α : Type) where
  least : α
  counted : Bool
  filter : Option (Target α)

structure Die (α : Type) where
  count : α
  faces : Faces α
  mods : List (Modifier α)
  targets : List (Modifier α)
  matching : Option (Matching α)
  sorting : Option Sorting

mutual
/-- A formula, with the label that its result carries. -/
structure Formula where
  shape : Shape
  label : Option String

inductive Shape where
  | number (value : Number)
  | die (die : Die Formula)
  | diceSum (head : Formula) (tail : List (Sign × Formula))
  | arithmetic (head : Formula) (tail : List (Operator × Formula))
  | group (first : Formula) (others : List Formula) (mods : List (Modifier Formula))
  | function (function : NumericFunction) (argument : Formula)
  | replacement (name : String) (argument : Formula)
  | inline (inner : Formula)
  | unknown
end

namespace Modifier

/-- The name by which errors speak of a modifier. -/
def name {α : Type} : Modifier α → String
  | .keep .. => "keep"
  | .drop .. => "drop"
  | .success _ => "success"
  | .failure _ => "failure"
  | .critical _ => "critical"
  | .criticalFailure _ => "critical failure"
  | .explode mode _ => Word.name mode
  | .reroll true _ => "reroll once"
  | .reroll false _ => "reroll"
  | .unknown => "unsupported"

def isTarget {α : Type} : Modifier α → Bool
  | .success _ | .failure _ => true
  | _ => false

end Modifier

def Die.plain {α : Type} (count : α) (faces : Faces α) : Die α :=
  ⟨count, faces, [], [], none, none⟩

namespace Formula

def bare (shape : Shape) : Formula :=
  ⟨shape, none⟩

instance : Inhabited Formula := ⟨bare .unknown⟩

def number (n : Number) : Formula :=
  bare (.number n)

def int (i : Int64) : Formula :=
  number (.int i)

def die (d : Die Formula) : Formula :=
  bare (.die d)

/-- `-1 * f`, by which a formula is negated. -/
def negated (f : Formula) : Formula :=
  bare (.arithmetic (int (-1)) [(.mul, f)])

/-- Whether a formula throws dice of its own, and not only inside of a function or an
arithmetic. -/
def throwsDice : Formula → Bool
  | ⟨.die _, _⟩ | ⟨.group .., _⟩ | ⟨.diceSum .., _⟩ => true
  | ⟨.inline inner, _⟩ => inner.throwsDice
  | _ => false

end Formula

end DiceNotation

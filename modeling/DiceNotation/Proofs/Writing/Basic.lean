import DiceNotation.Proofs.Formula.WellFormed
import DiceNotation.Proofs.Grammar.Additions
import DiceNotation.Proofs.Token.Spacing
import DiceNotation.Text.Blank

/-! Formulas in writing. The words of a formula are written with parentheses around whatever it holds,
a die with its additions after its faces, and a label after what it labels; between words stand
blanks. The order in which the additions to a die are written is a parameter. What may be written is
said by the shapes, names and labels that the notation has. -/

namespace DiceNotation

def Relation.words : Relation → List String
  | .atLeast => [">", ">="]
  | .atMost => ["<", "<="]
  | .equal => ["="]

def Extreme.keepWords : Extreme → List String
  | .high => ["k", "kh"]
  | .low => ["kl"]

def Extreme.dropWords : Extreme → List String
  | .high => ["dh"]
  | .low => ["d", "dl"]

def Explosion.word : Explosion → String
  | .explode => "!"
  | .compound => "!!"
  | .penetrate => "!p"

def rerollWord (once : Bool) : String :=
  if once then "ro" else "r"

def matchingWord (counted : Bool) : String :=
  if counted then "mt" else "m"

def Sorting.words : Sorting → List String
  | .ascending => ["s", "sa"]
  | .descending => ["sd"]

/-- The digits of an integer, after a minus sign if it is negative. -/
def integerWords (i : Int64) : List String :=
  if i.toInt < 0 then ["-", toString i.toInt.natAbs] else [toString i.toInt.natAbs]

namespace Writing

variable (A : Die Formula → List Addition → Prop)

mutual
/-- The words of a formula. -/
inductive OfFormula : Formula → List String → Prop
  | number (i : Int64) : OfFormula (.int i) (integerWords i)
  | die {d : Die Formula} {xs : List Addition} {ws vs us : List String}
      (hcount : Enclosed d.count ws) (hfaces : OfFaces d.faces vs) (hd : A d xs)
      (hxs : OfAdditions xs us) : OfFormula (.die d) (ws ++ "d" :: vs ++ us)
  | diceSum {head : Formula} {tail : List (Sign × Formula)} {ws vs : List String}
      (h : Enclosed head ws) (htail : OfTail (tail.map fun t => (t.1.symbol, t.2)) vs) :
      OfFormula (.bare (.diceSum head tail)) (ws ++ vs)
  | arithmetic {head : Formula} {tail : List (Operator × Formula)} {ws vs : List String}
      (h : Enclosed head ws) (htail : OfTail (tail.map fun t => (t.1.symbol, t.2)) vs) :
      OfFormula (.bare (.arithmetic head tail)) (ws ++ vs)
  | group {first : Formula} {others : List Formula} {mods : List (Modifier Formula)}
      {ws vs us : List String} (h : Enclosed first ws)
      (hothers : OfTail (others.map fun f => (",", f)) vs)
      (hmods : OfAdditions (mods.map Addition.modifier) us) :
      OfFormula (.bare (.group first others mods)) ("\x7b" :: ws ++ vs ++ "\x7d" :: us)
  | function (g : NumericFunction) {f : Formula} {ws : List String} (h : Enclosed f ws) :
      OfFormula (.bare (.function g f)) (g.symbol :: ws)
  | replacement (name : String) {f : Formula} {ws : List String} (h : Enclosed f ws) :
      OfFormula (.bare (.replacement name f)) (("@" ++ name) :: ws)
  | inline {f : Formula} {ws : List String} (h : OfFormula f ws) :
      OfFormula (.bare (.inline f)) ("[[" :: ws ++ ["]]"])
  | inlineEnclosed {f : Formula} {ws : List String} (h : Enclosed f ws) :
      OfFormula (.bare (.inline f)) ("[[" :: ws ++ ["]]"])
  | labeled (label : String) {shape : Shape} {ws : List String}
      (h : Enclosed (.bare shape) ws) :
      OfFormula ⟨shape, some label⟩ (ws ++ ["[" ++ label ++ "]"])

inductive Enclosed : Formula → List String → Prop
  | mk {f : Formula} {ws : List String} (h : OfFormula f ws) : Enclosed f ("(" :: ws ++ [")"])

/-- Formulas with a word before each. -/
inductive OfTail : List (String × Formula) → List String → Prop
  | nil : OfTail [] []
  | cons {word : String} {f : Formula} {tail : List (String × Formula)} {ws vs : List String}
      (h : Enclosed f ws) (htail : OfTail tail vs) : OfTail ((word, f) :: tail) (word :: ws ++ vs)

inductive OfFaces : Faces Formula → List String → Prop
  | fate : OfFaces .fate ["F"]
  | sides {f : Formula} {ws : List String} (h : Enclosed f ws) : OfFaces (.sides f) ws

inductive OfComparison : Target Formula → List String → Prop
  | mk {relation : Relation} {word : String} {f : Formula} {ws : List String}
      (hword : word ∈ relation.words) (h : Enclosed f ws) :
      OfComparison ⟨relation, f⟩ (word :: ws)

/-- After most keywords the comparator may be left out for equality. -/
inductive OfTarget : Target Formula → List String → Prop
  | compared {t : Target Formula} {ws : List String} (h : OfComparison t ws) : OfTarget t ws
  | equality {f : Formula} {ws : List String} (h : Enclosed f ws) : OfTarget ⟨.equal, f⟩ ws

inductive OfModifier : Modifier Formula → List String → Prop
  | keep {extreme : Extreme} {word : String} {f : Formula} {ws : List String}
      (hword : word ∈ extreme.keepWords) (h : Enclosed f ws) :
      OfModifier (.keep extreme f) (word :: ws)
  | drop {extreme : Extreme} {word : String} {f : Formula} {ws : List String}
      (hword : word ∈ extreme.dropWords) (h : Enclosed f ws) :
      OfModifier (.drop extreme f) (word :: ws)
  | success {t : Target Formula} {ws : List String} (h : OfComparison t ws) :
      OfModifier (.success t) ws
  | failure {t : Target Formula} {ws : List String} (h : OfTarget t ws) :
      OfModifier (.failure t) ("f" :: ws)
  | critical {t : Target Formula} {ws : List String} (h : OfTarget t ws) :
      OfModifier (.critical t) ("cs" :: ws)
  | criticalFailure {t : Target Formula} {ws : List String} (h : OfTarget t ws) :
      OfModifier (.criticalFailure t) ("cf" :: ws)
  | explode (mode : Explosion) : OfModifier (.explode mode none) [mode.word]
  | explodeOn (mode : Explosion) {t : Target Formula} {ws : List String} (h : OfTarget t ws) :
      OfModifier (.explode mode (some t)) (mode.word :: ws)
  | reroll (once : Bool) : OfModifier (.reroll once none) [rerollWord once]
  | rerollOn (once : Bool) {t : Target Formula} {ws : List String} (h : OfTarget t ws) :
      OfModifier (.reroll once (some t)) (rerollWord once :: ws)

inductive OfAddition : Addition → List String → Prop
  | modifier {m : Modifier Formula} {ws : List String} (h : OfModifier m ws) :
      OfAddition (.modifier m) ws
  | sorting {order : Sorting} {word : String} (hword : word ∈ order.words) :
      OfAddition (.sorting order) [word]
  | matching (counted : Bool) {f : Formula} {ws : List String} (h : Enclosed f ws) :
      OfAddition (.matching ⟨f, counted, none⟩) (matchingWord counted :: ws)
  | filtered (counted : Bool) {f : Formula} {t : Target Formula} {ws vs : List String}
      (h : Enclosed f ws) (ht : OfComparison t vs) :
      OfAddition (.matching ⟨f, counted, some t⟩) (matchingWord counted :: ws ++ vs)

inductive OfAdditions : List Addition → List String → Prop
  | nil : OfAdditions [] []
  | cons {x : Addition} {xs : List Addition} {ws vs : List String} (h : OfAddition x ws)
      (hxs : OfAdditions xs vs) : OfAdditions (x :: xs) (ws ++ vs)
end

end Writing

/-- The text has the words of the formula, with blanks between them. -/
def Formula.IsWritten (A : Die Formula → List Addition → Prop) (f : Formula) (text : String) :
    Prop :=
  ∃ ws, Writing.OfFormula A f ws ∧ Token.Spaced (ws.map String.toList) text.toList

/-- First the modifiers, then the targets, what to match and how to sort. -/
def Die.InOrder (d : Die Formula) (xs : List Addition) : Prop :=
  xs = d.mods.map .modifier ++ d.targets.map .modifier ++ d.matching.toList.map .matching ++
    d.sorting.toList.map .sorting

/-- The modifiers in their order and the targets in theirs, with the rest anywhere among them, and no
condition right after an addition that would take it for its own. -/
structure Die.Arranged (d : Die Formula) (xs : List Addition) : Prop where
  mods : xs.filterMap Addition.mod? = d.mods
  targets : xs.filterMap Addition.target? = d.targets
  matching : xs.filterMap Addition.matching? = d.matching.toList
  sorting : xs.filterMap Addition.sorting? = d.sorting.toList
  apart : xs.IsChain fun x y => (x.isOpen && y.isCondition) = false

/-- Integers and names are all that shapes have to have a word for. -/
def Shape.Legible : Shape → Prop
  | .number value => value.isInt = true
  | .replacement name _ => ∃ c cs, name.toList = c :: cs ∧ Token.isNameStart c = true ∧
      ∀ d ∈ cs, Token.isNameRest d = true
  | _ => True

/-- A label without white space around it. -/
def Trimmed (label : String) : Prop :=
  (∀ c ∈ label.toList.head?, Text.isSpace c = false) ∧
    ∀ c ∈ label.toList.getLast?, Text.isSpace c = false

def Formula.Writable (f : Formula) : Prop :=
  ∀ g ∈ Nested.parts f, g.Proper ∧ g.shape.Legible ∧ ∀ label ∈ g.label, Trimmed label

theorem Formula.writable_iff (f : Formula) : f.Writable ↔
    (f.Proper ∧ f.shape.Legible ∧ ∀ label ∈ f.label, Trimmed label) ∧
      (∀ g ∈ f.operands, g.Writable) ∧ ∀ g ∈ f.arguments, g.Writable := by
  rw [Writable, Nested.forall_parts_iff, children_eq, List.forall_mem_append]
  rfl

end DiceNotation

import DiceNotation.Formula.Decode
import DiceNotation.Formula.Names
import DiceNotation.Grammar.Formula
import DiceNotation.Formula.Roll
import DiceNotation.Session.Cache

/-!
Rollers. A roller reads a formula, resolves the names in it, and then rolls it; if a name cannot be
resolved, nothing is drawn.
-/

namespace DiceNotation

/-- A formula to roll, as text in the notation, as JSON text, or as it is. -/
inductive Request where
  | text (input : String)
  | json (input : String)
  | formula (formula : Formula)

inductive RequestError where
  | unparsed (failure : Failure)
  | unread (flaw : Json.Flaw)
  | unresolved (name reason : String)
  | fault (fault : Fault)

def RequestError.message : RequestError → String
  | .unparsed e => e.message
  | .unread _ => "malformed syntax tree"
  | .unresolved name _ => "failed to resolve replacement '" ++ name ++ "'"
  | .fault e => e.message

def Request.read : Request → Except RequestError Formula
  | .text input => (Formula.parse input).mapError .unparsed
  | .json input => (Formula.readJson input).mapError .unread
  | .formula f => .ok f

structure Roller where
  samples : Samples
  /-- How many samples have been drawn. -/
  cursor : Nat
  limit : Nat
  patience : Nat
  resolver : Resolver

/-- What came of a request: its outcome, the names asked for, and how many samples it drew. -/
structure Report where
  outcome : Except RequestError Outcome
  asked : List String
  draws : Nat

namespace Roller

def new (samples : Samples) (resolver : Resolver) (limit : Nat) : Roller :=
  ⟨samples, 0, limit, Table.defaultPatience, resolver⟩

def table (r : Roller) (transforms : List (String × Transform)) : Table :=
  ⟨r.samples, r.limit, r.patience, transforms⟩

def rollWith (r : Roller) (transforms : List (String × Transform)) (f : Formula) :
    Except Fault Outcome × Roller :=
  let (outcome, cursor) := f.roll (r.table transforms) r.cursor
  (outcome, { r with cursor := cursor })

def rollFormula (r : Roller) (cache : Cache) (f : Formula) : Report × Roller × Cache :=
  let resolved := cache.resolve r.resolver f.replacements
  match resolved.transforms with
  | .error (name, reason) =>
    (⟨.error (.unresolved name reason), resolved.asked, 0⟩, r, resolved.cache)
  | .ok transforms =>
    let (outcome, r') := r.rollWith transforms f
    (⟨outcome.mapError .fault, resolved.asked, r'.cursor - r.cursor⟩, r', resolved.cache)

def roll (r : Roller) (cache : Cache) (request : Request) : Report × Roller × Cache :=
  match request.read with
  | .error e => (⟨.error e, [], 0⟩, r, cache)
  | .ok f => r.rollFormula cache f

end Roller

end DiceNotation

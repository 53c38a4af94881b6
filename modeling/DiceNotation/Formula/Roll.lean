import DiceNotation.Chance.Play
import DiceNotation.Outcome.Assembly
import DiceNotation.Stage.Rethrow

/-!
Rolling formulas. Rolling goes from left to right and into arguments first, so that one source gives
one outcome. A die rolls its count, then its faces, then draws its throws, and each modifier rolls
its argument when its turn comes.
-/

namespace DiceNotation

namespace Play

/-- How many dice a count asks for, within the limit; none if it is negative. -/
def throwCount (count : Number) : Play Nat := do
  let limit := (← table).limit
  if (Number.ofNat limit).less count then fault (.tooManyDice count limit)
  else return count.floor.toInt64.toInt.toNat

/-- The faces of a die, of which it needs one at least. -/
def sidesOf (count : Number) : Play (Faces Int64) :=
  if count.floor.less (.int 1) then fault (.noFaces count)
  else return .sides count.floor.toInt64

/-- Combines two values, unless the second is a zero that the first cannot be divided by. -/
def combine (op : Operator) (a b : Number) : Play Number :=
  match op with
  | .div => if b.isZero then fault .divisionByZero else return a.div b
  | .rem => if b.isZero then fault .remainderByZero else return a.rem b
  | op => return op.apply a b

def throwStage (m : Modifier Number) (ts : List Throw) : Play (List Throw) :=
  match m with
  | .critical condition => return ts.map (Stage.critical .success condition)
  | .criticalFailure condition => return ts.map (Stage.critical .failure condition)
  | .explode mode condition => step fun table cursor =>
    Stage.explode table.samples mode condition m.name cursor ts
  | .reroll once condition => step fun table cursor =>
    Stage.reroll table.samples table.patience once condition m.name cursor ts
  | m =>
    match Stage.ofModifier? m with
    | some stage => return Stage.onThrows stage ts
    | none => fault (.unknownModifier m.name "die")

def entryStage (m : Modifier Number) (es : List Entry) : Play (List Entry) :=
  match Stage.ofModifier? m with
  | some stage => return stage es
  | none => fault (.unknownModifier m.name "group")

def transform (name : String) (value : Number) : Play Number := do
  match (← table).transforms.lookup name with
  | some f => return f value
  | none => fault (.unresolved name)

end Play

def Modifier.isForGroups {α : Type} : Modifier α → Bool
  | .keep .. | .drop .. | .success _ | .failure _ => true
  | _ => false

mutual
def Formula.roll : Formula → Play Outcome
  | ⟨shape, label⟩ => do return (← shape.roll).relabel label

def Shape.roll : Shape → Play Outcome
  | .number n => return .number n
  | .die ⟨count, faces, mods, targets, matching, sorting⟩ => do
    let count ← count.roll
    let n ← Play.throwCount count.value
    let (sides, faces) ← rollFaces faces
    let throws ← Play.throwMany faces n
    let throws ← rollMods mods throws
    let throws ← rollMods targets throws
    return .ofDie count sides (!targets.isEmpty) (← rollMatching matching) sorting throws
  | .diceSum head tail => do
    let head ← head.roll
    let (tail, value) ← rollDiceTail tail head.value 1
    return .bare (.diceSum head tail) value
  | .arithmetic head tail => do
    let head ← head.roll
    let (tail, value) ← rollMathTail tail head.value 1
    return .bare (.arithmetic head tail) value
  | .group first others mods => do
    let first ← first.roll
    let members := first :: (← rollMembers others 1)
    if mods.isEmpty then return .ofMembers members
    else
      let entries ← rollGroupMods mods (Entry.ofStatuses (Outcome.entries members))
      return .ofGroup members (mods.any Modifier.isTarget) (Entry.statuses entries)
  | .function f argument => do
    let argument ← argument.roll
    return .bare (.function f argument) (f.apply argument.value)
  | .replacement name argument => do
    let argument ← argument.roll
    return .bare (.replacement name argument) (← Play.transform name argument.value)
  | .inline inner => inner.roll
  | .unknown => Play.fault .unknownFormula

def rollFaces : Faces Formula → Play (Option Outcome × Faces Int64)
  | .fate => return (none, .fate)
  | .sides count => do
    let count ← count.roll
    return (some count, ← Play.sidesOf count.value)

def rollTarget : Target Formula → Play (Target Number)
  | ⟨relation, value⟩ => return ⟨relation, (← value.roll).value⟩

def rollOptionalTarget : Option (Target Formula) → Play (Option (Target Number))
  | none => return none
  | some t => return some (← rollTarget t)

def rollModifier : Modifier Formula → Play (Modifier Number)
  | .keep extreme count => return .keep extreme (← count.roll).value
  | .drop extreme count => return .drop extreme (← count.roll).value
  | .success target => return .success (← rollTarget target)
  | .failure target => return .failure (← rollTarget target)
  | .critical target => return .critical (← rollTarget target)
  | .criticalFailure target => return .criticalFailure (← rollTarget target)
  | .explode mode target => return .explode mode (← rollOptionalTarget target)
  | .reroll once target => return .reroll once (← rollOptionalTarget target)
  | .unknown => return .unknown

def rollMods : List (Modifier Formula) → List Throw → Play (List Throw)
  | [], ts => return ts
  | m :: ms, ts => do
    let m ← rollModifier m
    rollMods ms (← Play.throwStage m ts)

def rollMatching : Option (Matching Formula) → Play (Option (Matching Number))
  | none => return none
  | some ⟨least, counted, filter⟩ => do
    let least ← least.roll
    return some ⟨least.value, counted, ← rollOptionalTarget filter⟩

def rollDiceTail : List (Sign × Formula) → Number → Nat →
    Play (List (Sign × Outcome) × Number)
  | [], value, _ => return ([], value)
  | (op, f) :: rest, value, order => do
    let o ← f.roll
    let (rest, value) ← rollDiceTail rest (op.apply value o.value) (order + 1)
    return ((op, o.place order) :: rest, value)

def rollMathTail : List (Operator × Formula) → Number → Nat →
    Play (List (Operator × Outcome) × Number)
  | [], value, _ => return ([], value)
  | (op, f) :: rest, value, order => do
    let o ← f.roll
    let value ← Play.combine op value o.value
    let (rest, value) ← rollMathTail rest value (order + 1)
    return ((op, o.place order) :: rest, value)

def rollMembers : List Formula → Nat → Play (List Outcome)
  | [], _ => return []
  | f :: fs, order => do
    let o ← f.roll
    return o.place order :: (← rollMembers fs (order + 1))

def rollGroupMods : List (Modifier Formula) → List Entry → Play (List Entry)
  | [], es => return es
  | m :: ms, es => do
    if !m.isForGroups then Play.fault (.unknownModifier m.name "group")
    else
      let m ← rollModifier m
      rollGroupMods ms (← Play.entryStage m es)
end

end DiceNotation

import DiceNotation.Proofs.Number.Range
import DiceNotation.Proofs.Roll.Modifiers

/-! The die counts that a roll evaluates. They are traced along the roll, up to where it fails if it
does, for what depends on counts whether or not there is an outcome. -/

namespace DiceNotation

/-- The numbers that a computation at a table comes to see, from a place of the source on. -/
def Trace : Type :=
  Table → Nat → List Number

namespace Trace

variable {α β : Type} {table : Table} {n : Nat}

def empty : Trace := fun _ _ => []

def single (x : Number) : Trace := fun _ _ => [x]

/-- The trace of a computation followed by that of another, which runs on what the first gives. -/
def bind (first : Trace) (p : Play α) (next : α → Trace) : Trace := fun table n =>
  first table n ++ match p table n with
    | (.ok a, m) => next a table m
    | (.error _, _) => []

theorem forall_mem_bind {P : Number → Prop} (first : Trace) (p : Play α) (next : α → Trace) :
    (∀ c ∈ first.bind p next table n, P c) ↔
      (∀ c ∈ first table n, P c) ∧ p.Gives table n fun a m => ∀ c ∈ next a table m, P c := by
  rw [bind, List.forall_mem_append]
  refine and_congr_right fun _ => ?_
  unfold Play.Gives
  rcases p table n with ⟨_ | a, m⟩ <;> simp

@[simp] theorem bind_empty (first : Trace) (p : Play α) :
    (first.bind p fun _ => empty) = first := by
  funext table n
  simp only [bind, empty]
  rcases p table n with ⟨_ | a, m⟩ <;> simp

theorem bind_assoc (first : Trace) (p : Play α) (f : α → Play β) (next : α → Trace)
    (last : β → Trace) :
    (first.bind p next).bind (p >>= f) last =
      first.bind p fun a => (next a).bind (f a) last := by
  funext table n
  simp only [bind, Play.bind_run]
  rcases p table n with ⟨_ | a, m⟩ <;> simp

end Trace

open Play

mutual
/-- The values of the die counts that rolling a formula evaluates. -/
def Formula.counts : Formula → Trace
  | ⟨shape, _⟩ => shape.counts

def Shape.counts : Shape → Trace
  | .number _ | .unknown => .empty
  | .die ⟨count, faces, mods, targets, matching, _⟩ =>
    count.counts.bind count.roll fun count =>
    (Trace.single count.value).bind (throwCount count.value) fun n =>
    (facesCounts faces).bind (rollFaces faces) fun (_, faces) =>
    Trace.empty.bind (throwMany faces n) fun throws =>
    (modsCounts mods throws).bind (rollMods mods throws) fun throws =>
    (modsCounts targets throws).bind (rollMods targets throws) fun _ =>
    matchingCounts matching
  | .diceSum head tail => head.counts.bind head.roll fun _ => diceTailCounts tail
  | .arithmetic head tail => head.counts.bind head.roll fun head => mathTailCounts tail head.value
  | .group first others mods =>
    first.counts.bind first.roll fun first =>
    (membersCounts others).bind (rollMembers others 1) fun others =>
    groupModsCounts mods (Entry.ofStatuses (Outcome.entries (first :: others)))
  | .function _ argument | .replacement _ argument => argument.counts
  | .inline inner => inner.counts

def facesCounts : Faces Formula → Trace
  | .fate => .empty
  | .sides count => count.counts

def targetCounts : Target Formula → Trace
  | ⟨_, value⟩ => value.counts

def optionalTargetCounts : Option (Target Formula) → Trace
  | none => .empty
  | some t => targetCounts t

def modifierCounts : Modifier Formula → Trace
  | .keep _ count | .drop _ count => count.counts
  | .success t | .failure t | .critical t | .criticalFailure t => targetCounts t
  | .explode _ t | .reroll _ t => optionalTargetCounts t
  | .unknown => .empty

def modsCounts : List (Modifier Formula) → List Throw → Trace
  | [], _ => .empty
  | m :: ms, ts =>
    (modifierCounts m).bind (rollModifier m) fun m =>
    Trace.empty.bind (throwStage m ts) fun ts => modsCounts ms ts

def matchingCounts : Option (Matching Formula) → Trace
  | none => .empty
  | some ⟨least, _, filter⟩ => least.counts.bind least.roll fun _ => optionalTargetCounts filter

def diceTailCounts : List (Sign × Formula) → Trace
  | [] => .empty
  | (_, f) :: rest => f.counts.bind f.roll fun _ => diceTailCounts rest

def mathTailCounts : List (Operator × Formula) → Number → Trace
  | [], _ => .empty
  | (op, f) :: rest, value =>
    f.counts.bind f.roll fun o =>
    Trace.empty.bind (combine op value o.value) fun value => mathTailCounts rest value

def membersCounts : List Formula → Trace
  | [] => .empty
  | f :: fs => f.counts.bind f.roll fun _ => membersCounts fs

def groupModsCounts : List (Modifier Formula) → List Entry → Trace
  | [], _ => .empty
  | m :: ms, es =>
    if !m.isForGroups then .empty
    else
      (modifierCounts m).bind (rollModifier m) fun m =>
      Trace.empty.bind (entryStage m es) fun es => groupModsCounts ms es
end

/-- The modifiers of two lists in a row are those of the joined list. -/
theorem modsCounts_append (ms ms' : List (Modifier Formula)) (ts : List Throw) :
    modsCounts (ms ++ ms') ts = (modsCounts ms ts).bind (rollMods ms ts) (modsCounts ms') := by
  induction ms generalizing ts with
  | nil =>
    funext table n
    simp [modsCounts, rollMods, Trace.bind, Trace.empty]
  | cons m ms ih =>
    simp only [List.cons_append, modsCounts, rollMods, Trace.bind_assoc, ih]

theorem counts_die (d : Die Formula) :
    Shape.counts (.die d) = d.count.counts.bind d.count.roll fun count =>
      (Trace.single count.value).bind (throwCount count.value) fun size =>
      (facesCounts d.faces).bind (rollFaces d.faces) fun r =>
      (Trace.empty.bind (throwMany r.2 size) (modsCounts (d.mods ++ d.targets))).bind
        (throwMany r.2 size >>= rollMods (d.mods ++ d.targets)) fun _ =>
      matchingCounts d.matching := by
  simp only [Shape.counts, Trace.bind_assoc, modsCounts_append,
    funext (rollMods_append d.mods d.targets)]

end DiceNotation

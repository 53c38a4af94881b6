import DiceNotation.Chance.Play
import DiceNotation.Text.Quoted

/-!
Transforms by name. A cache remembers those that have been resolved; a resolver is asked for the
others, in order, and the first name that it refuses ends the asking.
-/

namespace DiceNotation

/-- What a name stands for, or why it stands for nothing. -/
abbrev Resolver := String → Except String Transform

/-- Resolved transforms, the first one first, each name once. -/
structure Cache where
  entries : List (String × Transform)

namespace Cache

def empty : Cache := ⟨[]⟩

def get? (c : Cache) (name : String) : Option Transform :=
  c.entries.lookup name

def size (c : Cache) : Nat :=
  c.entries.length

def insertInto (name : String) (f : Transform) :
    List (String × Transform) → List (String × Transform)
  | [] => [(name, f)]
  | (n, g) :: rest => if n = name then (n, f) :: rest else (n, g) :: insertInto name f rest

def insert (c : Cache) (name : String) (f : Transform) : Cache :=
  ⟨insertInto name f c.entries⟩

theorem lookup_insertInto (name : String) (f : Transform) (entries : List (String × Transform))
    (other : String) : (insertInto name f entries).lookup other =
      if other = name then some f else entries.lookup other := by
  induction entries with
  | nil =>
    by_cases h : other = name
    · simp [insertInto, h]
    · simp [insertInto, List.lookup_cons, beq_false_of_ne h, h]
  | cons e rest ih =>
    obtain ⟨n, g⟩ := e
    by_cases h : n = name <;> by_cases k : other = n
    · simp [insertInto, h, k]
    · have k' : other ≠ name := fun e => k (e.trans h.symm)
      simp [insertInto, List.lookup_cons, h, k', beq_false_of_ne k']
    · have k' : other ≠ name := fun e => h (k.symm.trans e)
      simp [insertInto, h, k]
    · simp [insertInto, List.lookup_cons, beq_false_of_ne k, h, ih]

@[simp] theorem get?_insert (c : Cache) (name : String) (f : Transform) (other : String) :
    (c.insert name f).get? other = if other = name then some f else c.get? other :=
  lookup_insertInto name f c.entries other

def text (c : Cache) : String :=
  "\x7b" ++ ", ".intercalate (c.entries.map fun e => Text.quoted e.1) ++ "\x7d"

structure Resolved where
  cache : Cache
  asked : List String
  /-- The transforms of all names, or the name that has none and why. -/
  transforms : Except (String × String) (List (String × Transform))

/-- Looks up names in order, asking for those that the cache does not have. -/
def resolve (resolver : Resolver) : Cache → List String → Resolved
  | c, [] => ⟨c, [], .ok []⟩
  | c, name :: names =>
    match c.get? name with
    | some f =>
      let r := resolve resolver c names
      { r with transforms := r.transforms.map ((name, f) :: ·) }
    | none =>
      match resolver name with
      | .error reason => ⟨c, [name], .error (name, reason)⟩
      | .ok f =>
        let r := resolve resolver (c.insert name f) names
        { r with asked := name :: r.asked, transforms := r.transforms.map ((name, f) :: ·) }

end Cache

end DiceNotation

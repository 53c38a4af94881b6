import DiceNotation.Session.Roller

/-!
Sessions: rollers and caches by name. A roller starts with a cache of its own and can be given one
that it shares with others.
-/

namespace DiceNotation

/-- Which cache is meant: that of a roller or one that rollers share. -/
inductive CacheKey where
  | own (roller : String)
  | shared (name : String)
  deriving DecidableEq

structure Session where
  rollers : String → Option (Roller × CacheKey)
  caches : CacheKey → Cache

namespace Session

def start : Session := ⟨fun _ => none, fun _ => .empty⟩

def setRoller (s : Session) (name : String) (r : Roller) (key : CacheKey) : Session :=
  { s with rollers := fun n => if n = name then some (r, key) else s.rollers n }

def setCache (s : Session) (key : CacheKey) (c : Cache) : Session :=
  { s with caches := fun k => if k = key then c else s.caches k }

@[simp] theorem setCache_caches (s : Session) (key other : CacheKey) (c : Cache) :
    (s.setCache key c).caches other = if other = key then c else s.caches other :=
  rfl

/-- A new roller with an empty cache of its own, in place of the one that had the name. -/
def addRoller (s : Session) (name : String) (r : Roller) : Session :=
  (s.setRoller name r (.own name)).setCache (.own name) .empty

def cacheOf (s : Session) (name : String) : Cache :=
  match s.rollers name with
  | some (_, key) => s.caches key
  | none => .empty

def setLimit (s : Session) (name : String) (limit : Nat) : Session :=
  match s.rollers name with
  | some (r, key) => s.setRoller name { r with limit := limit } key
  | none => s

def share (s : Session) (name cache : String) : Session :=
  match s.rollers name with
  | some (r, _) => s.setRoller name r (.shared cache)
  | none => s

def insert (s : Session) (cache name : String) (f : Transform) : Session :=
  s.setCache (.shared cache) ((s.caches (.shared cache)).insert name f)

/-- Lets a roller roll; there is no report if no roller has the name. -/
def roll (s : Session) (name : String) (request : Request) : Option Report × Session :=
  match s.rollers name with
  | some (r, key) =>
    let (report, r', cache) := r.roll (s.caches key) request
    (some report, (s.setRoller name r' key).setCache key cache)
  | none => (none, s)

end Session

end DiceNotation

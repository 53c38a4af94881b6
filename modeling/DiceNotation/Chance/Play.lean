import DiceNotation.Chance.Face
import DiceNotation.Fault

/-!
Computations that draw samples. What they may use lies on a table: a random source, a limit, the
transforms of named replacements. How many samples have been drawn is known whether a computation
succeeds or not.
-/

namespace DiceNotation

/-- What a named replacement does to the value of its argument. -/
abbrev Transform := Number → Number

structure Table where
  samples : Samples
  /-- How many dice one die formula may throw. -/
  limit : Nat
  /-- How often one throw may be thrown again. -/
  patience : Nat
  transforms : List (String × Transform)

namespace Table

def defaultLimit : Nat := 1000

/-- More draws than any source is made for. -/
def defaultPatience : Nat := 0x4000000000000000

end Table

/-- A computation at a table, from the number of samples drawn before it to that drawn after it. -/
def Play (α : Type) : Type :=
  Table → Nat → Except Fault α × Nat

namespace Play

variable {α β : Type}

def pure (a : α) : Play α := fun _ cursor => (.ok a, cursor)

def bind (p : Play α) (f : α → Play β) : Play β := fun table cursor =>
  match p table cursor with
  | (.ok a, next) => f a table next
  | (.error e, next) => (.error e, next)

instance : Monad Play where
  pure := Play.pure
  bind := Play.bind

def fault (e : Fault) : Play α := fun _ cursor => (.error e, cursor)

def table : Play Table := fun table cursor => (.ok table, cursor)

/-- A step that draws from the source, and says where that has come to, whether it fails or not. -/
def step (f : Table → Nat → Except Fault α × Nat) : Play α :=
  f

def throwMany (faces : Faces Int64) (n : Nat) : Play (List Throw) :=
  step fun table cursor => (.ok (Throw.drawMany table.samples cursor faces n), cursor + n)

@[simp] theorem pure_run (a : α) (t : Table) (n : Nat) :
    (Pure.pure a : Play α) t n = (.ok a, n) :=
  rfl

@[simp] theorem fault_run (e : Fault) (t : Table) (n : Nat) :
    (fault e : Play α) t n = (.error e, n) :=
  rfl

theorem bind_run (p : Play α) (f : α → Play β) (t : Table) (n : Nat) :
    (p >>= f) t n = match p t n with
      | (.ok a, m) => f a t m
      | (.error e, m) => (.error e, m) :=
  rfl

theorem bind_ok {p : Play α} {t : Table} {n m : Nat} {a : α} (h : p t n = (.ok a, m))
    (f : α → Play β) : (p >>= f) t n = f a t m := by
  rw [bind_run, h]

theorem bind_error {p : Play α} {t : Table} {n m : Nat} {e : Fault} (h : p t n = (.error e, m))
    (f : α → Play β) : (p >>= f) t n = (.error e, m) := by
  rw [bind_run, h]

theorem id_bind (p : Play α) : p >>= Pure.pure = p := by
  funext t n
  rw [bind_run]
  rcases p t n with ⟨_ | _, _⟩ <;> rfl

theorem assoc_bind {γ : Type} (p : Play α) (f : α → Play β) (g : β → Play γ) :
    p >>= f >>= g = p >>= fun a => f a >>= g := by
  funext t n
  simp only [bind_run]
  rcases p t n with ⟨_ | _, _⟩ <;> rfl

instance : LawfulMonad Play :=
  LawfulMonad.mk' Play id_bind (fun _ _ => rfl) assoc_bind

end Play

end DiceNotation

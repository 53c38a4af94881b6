import DiceNotation.Outcome.Basic

/-!
From samples to faces. A sample between zero and one is stretched over the faces of a die; it is
rounded at nine places first, so that a sample just below the bound of a face counts as on it.
-/

namespace DiceNotation

/-- A random source: its samples, one for each draw. -/
abbrev Samples := Nat → Float

namespace Samples

def cycle (xs : List Float) : Samples :=
  let xs := xs.toArray
  fun i => xs[i % xs.size]?.getD 0

def middle (n face : Float) : Float :=
  (face - 0.5) / n

/-- The sample that a word of 64 bits stands for, by its upper 53 bits. -/
def ofWord (w : UInt64) : Float :=
  (w >>> 11).toFloat / 9007199254740992

structure Affine where
  factor : UInt64
  offset : UInt64

namespace Affine

def apply (f : Affine) (x : UInt64) : UInt64 :=
  f.factor * x + f.offset

def comp (f g : Affine) : Affine :=
  ⟨f.factor * g.factor, f.factor * g.offset + f.offset⟩

/-- The map repeated `n` times, by the binary digits of `n`. -/
def power (f : Affine) : Nat → Nat → Affine
  | 0, _ => ⟨1, 0⟩
  | fuel + 1, n =>
    if n = 0 then ⟨1, 0⟩
    else
      let half := power (f.comp f) fuel (n / 2)
      if n % 2 = 1 then half.comp f else half

end Affine

def step : Affine := ⟨6364136223846793005, 1442695040888963407⟩

/-- The samples of the generator; its state takes a step before each of them. -/
def congruential (seed : UInt64) : Samples := fun i =>
  ofWord ((step.power 64 (i + 1)).apply seed)

end Samples

namespace Faces

/-- The face from one to `count` that a sample falls on. -/
def stretch (sample : Float) (count : Int64) : Int64 :=
  let stretched := floatRound (sample * Float.ofInt count.toInt * 1e9) / 1e9
  let face := (Number.float stretched).floor.toInt64 + 1
  max 1 (min face (max count 1))

def ofSample (sample : Float) : Faces Int64 → Int64
  | .sides count => stretch sample count
  | .fate => stretch sample 3 - 2

end Faces

namespace Throw

def draw (samples : Samples) (cursor : Nat) (faces : Faces Int64) (order : Nat) : Throw :=
  fresh faces (faces.ofSample (samples cursor)) order

def drawMany (samples : Samples) (cursor : Nat) (faces : Faces Int64) (n : Nat) : List Throw :=
  (List.range n).map fun i => draw samples (cursor + i) faces i

end Throw

end DiceNotation

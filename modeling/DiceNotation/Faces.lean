import DiceNotation.Number.Basic

/-!
The faces of a die: a number of them, counted from one, or the three of a fate die, which show
`-1`, `0` and `1`.
-/

namespace DiceNotation

/-- The faces of a die, their number given by any type: a formula, or the number it came to. -/
inductive Faces (α : Type) where
  | fate
  | sides (count : α)
  deriving DecidableEq

namespace Faces

def lowest : Faces Int64 → Int64
  | .sides _ => 1
  | .fate => -1

def highest : Faces Int64 → Int64
  | .sides count => count
  | .fate => 1

end Faces

end DiceNotation

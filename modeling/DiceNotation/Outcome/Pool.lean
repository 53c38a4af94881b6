import DiceNotation.Outcome.Basic

/-!
The pool of a die or of a sum of dice: the throws in it, through sums inside of sums. Numbers among
the terms are left out and any other term stands for itself. The statuses of a pool can be taken
out, changed and put back; the values above them are then summed anew.
-/

namespace DiceNotation

namespace Throw

/-- Puts statuses back into throws, in order, and gives those that are left over. -/
def refill : List Throw → List Status → List Throw × List Status
  | [], ss => ([], ss)
  | ts, [] => (ts, [])
  | t :: ts, s :: ss =>
    let (us, rest) := refill ts ss
    ({ t with status := s } :: us, rest)

end Throw

namespace Outcome

mutual
def pool : Outcome → List Status
  | ⟨_, .die _ _ throws, _⟩ => throws.map Throw.status
  | ⟨_, .diceSum head tail, _⟩ => head.pool ++ poolTail tail
  | ⟨_, .number, _⟩ => []
  | o => [o.status]

def poolTail : List (Sign × Outcome) → List Status
  | [] => []
  | (_, o) :: rest => o.pool ++ poolTail rest
end

mutual
def refill : Outcome → List Status → Outcome × List Status
  | ⟨s, .die count faces throws, label⟩, ss =>
    let (us, rest) := Throw.refill throws ss
    (⟨s, .die count faces us, label⟩, rest)
  | ⟨s, .diceSum head tail, label⟩, ss =>
    let (head', rest) := head.refill ss
    let (tail', rest) := refillTail tail rest
    (⟨s, .diceSum head' tail', label⟩, rest)
  | ⟨s, .number, label⟩, ss => (⟨s, .number, label⟩, ss)
  | ⟨s, body, label⟩, [] => (⟨s, body, label⟩, [])
  | ⟨_, body, label⟩, s :: ss => (⟨s, body, label⟩, ss)

def refillTail : List (Sign × Outcome) → List Status →
    List (Sign × Outcome) × List Status
  | [], ss => ([], ss)
  | (op, o) :: rest, ss =>
    let (o', ss) := o.refill ss
    let (rest', ss) := refillTail rest ss
    ((op, o') :: rest', ss)
end

/-- What a term adds to the value of its pool: nothing for a number or for what is not valid. -/
def contribution (o : Outcome) : Number :=
  match o.body with
  | .die .. | .diceSum .. => o.value
  | .number => .zero
  | _ => if o.valid then o.value else .zero

mutual
def resum : Outcome → Outcome
  | ⟨s, .die count faces throws, label⟩ =>
    ⟨{ s with value := Throw.total throws }, .die count faces throws, label⟩
  | ⟨s, .diceSum head tail, label⟩ =>
    let head' := head.resum
    let tail' := resumTail tail
    let value := Number.sum (head'.contribution :: tail'.map fun t => t.2.contribution)
    ⟨{ s with value := value }, .diceSum head' tail', label⟩
  | o => o

def resumTail : List (Sign × Outcome) → List (Sign × Outcome)
  | [] => []
  | (op, o) :: rest => (op, o.resum) :: resumTail rest
end

end Outcome

end DiceNotation

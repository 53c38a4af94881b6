import DiceNotation.Outcome.Render

/-!
Transcripts: trees of results as they are written out, whether or not a formula comes to them. Any
part may stand anywhere and have a label, throws too. The Markdown writer goes through a transcript
with a flag, which is up while it writes something struck through.
-/

namespace DiceNotation

mutual
inductive Transcript where
  | throw (t : Throw) (label : Option String)
  | node (status : Status) (passage : Passage) (label : Option String)

inductive Passage where
  | number
  | die (count : Transcript) (faces : Option Transcript) (throws : List Transcript)
  | diceSum (head : Transcript) (tail : List (Sign × Transcript))
  | arithmetic (head : Transcript) (tail : List (Operator × Transcript))
  | group (members : List Transcript)
  | function (function : NumericFunction) (argument : Transcript)
  | replacement (name : String) (argument : Transcript)
end

namespace Transcript

def status : Transcript → Status
  | .throw t _ => t.status
  | .node status _ _ => status

def valid (t : Transcript) : Bool :=
  t.status.valid

def label : Transcript → Option String
  | .throw _ label | .node _ _ label => label

def facesText : Option Transcript → String
  | none => "F"
  | some faces => faces.status.value.text

/-- Strikes through what is written inside, unless it is valid or the flag is up already. -/
def striking (valid : Bool) (inside : StateM Bool String) : StateM Bool String := do
  if !valid && !(← get) then
    set true
    let text ← inside
    set false
    return Style.strike text
  else inside

mutual
def write : Transcript → StateM Bool String
  | .throw t label =>
    striking t.valid (return Style.markdown.throwText t ++ Style.labelText label)
  | .node status passage label => striking status.valid do
    return (← writePassage status.value passage) ++ Style.labelText label

def writePassage (value : Number) : Passage → StateM Bool String
  | .number => return value.text
  | .die count faces throws => do
    let throws ← writeMembers throws
    return count.status.value.text ++ "d" ++ facesText faces ++ " (" ++ ", ".intercalate throws ++ ")"
  | .diceSum head tail => do
    let head ← write head
    return head ++ (← writeDiceTail tail)
  | .arithmetic head tail => do
    let head ← write head
    return head ++ (← writeMathTail tail)
  | .group members => return "\x7b" ++ ", ".intercalate (← writeMembers members) ++ "\x7d"
  | .function f argument => return f.symbol ++ "(" ++ (← write argument) ++ ")"
  | .replacement name argument => return "@" ++ name ++ "(" ++ (← write argument) ++ ")"

def writeDiceTail : List (Sign × Transcript) → StateM Bool String
  | [] => return ""
  | (op, t) :: rest => do
    let text ← write t
    return " " ++ op.symbol ++ " " ++ text ++ (← writeDiceTail rest)

def writeMathTail : List (Operator × Transcript) → StateM Bool String
  | [] => return ""
  | (op, t) :: rest => do
    let text ← write t
    return " " ++ op.symbol ++ " " ++ text ++ (← writeMathTail rest)

def writeMembers : List Transcript → StateM Bool (List String)
  | [] => return []
  | t :: ts => do
    let text ← write t
    return text :: (← writeMembers ts)
end

/-- What a new writer writes. -/
def text (t : Transcript) : String :=
  (t.write.run false).1

/-- The whole transcript by a writer whose flag is down again, followed by its value. -/
def render (t : Transcript) : StateM Bool String := do
  set false
  return (← t.write) ++ " = `" ++ t.status.value.text ++ "`"

end Transcript

def Throw.transcript (t : Throw) : Transcript :=
  .throw t none

mutual
def Outcome.transcript : Outcome → Transcript
  | ⟨status, body, label⟩ => .node status body.passage label

def Body.passage : Body → Passage
  | .number => .number
  | .die count faces throws =>
    .die count.transcript (facesTranscript faces) (throws.map Throw.transcript)
  | .diceSum head tail => .diceSum head.transcript (diceTailTranscripts tail)
  | .arithmetic head tail => .arithmetic head.transcript (mathTailTranscripts tail)
  | .group members => .group (memberTranscripts members)
  | .function f argument => .function f argument.transcript
  | .replacement name argument => .replacement name argument.transcript

def facesTranscript : Option Outcome → Option Transcript
  | none => none
  | some faces => some faces.transcript

def diceTailTranscripts : List (Sign × Outcome) → List (Sign × Transcript)
  | [] => []
  | (op, o) :: rest => (op, o.transcript) :: diceTailTranscripts rest

def mathTailTranscripts : List (Operator × Outcome) → List (Operator × Transcript)
  | [] => []
  | (op, o) :: rest => (op, o.transcript) :: mathTailTranscripts rest

def memberTranscripts : List Outcome → List Transcript
  | [] => []
  | o :: os => o.transcript :: memberTranscripts os
end

end DiceNotation

import DiceNotation.Outcome.Basic

/-!
Outcomes as text. The plain style writes values alone. In Markdown, what is not valid is struck
through, once for all that is inside of it, criticals are bold and matched throws are underlined.
-/

namespace DiceNotation

inductive Style where
  | plain
  | markdown
  deriving DecidableEq

namespace Style

/-- Whether the style strikes a part that is not inside of a struck one. -/
def strikes (style : Style) (struck valid : Bool) : Bool :=
  decide (style = .markdown) && !struck && !valid

def strike (text : String) : String :=
  "~~" ++ text ++ "~~"

def throwText (style : Style) (t : Throw) : String :=
  let text := if t.exploded then t.value.text ++ "!" else t.value.text
  match style with
  | .plain => text
  | .markdown =>
    let text := if t.critical.isSome then "**" ++ text ++ "**" else text
    if t.matched then "__" ++ text ++ "__" else text

/-- A throw, `struck` when it stands inside of something struck through. -/
def writeThrow (style : Style) (struck : Bool) (t : Throw) : String :=
  if style.strikes struck t.valid then strike (style.throwText t) else style.throwText t

def labelText : Option String → String
  | some label => " [" ++ label ++ "]"
  | none => ""

mutual
def write (style : Style) (struck : Bool) : Outcome → String
  | ⟨status, body, label⟩ =>
    if style.strikes struck status.valid then
      strike (writeBody style true status.value body ++ labelText label)
    else writeBody style struck status.value body ++ labelText label

def writeBody (style : Style) (struck : Bool) (value : Number) : Body → String
  | .number => value.text
  | .die count faces throws =>
    count.value.text ++ "d" ++ facesText faces ++ " (" ++
      ", ".intercalate (throws.map (writeThrow style struck)) ++ ")"
  | .diceSum head tail => write style struck head ++ writeDiceTail style struck tail
  | .arithmetic head tail => write style struck head ++ writeMathTail style struck tail
  | .group members => "\x7b" ++ ", ".intercalate (writeMembers style struck members) ++ "\x7d"
  | .function f argument => f.symbol ++ "(" ++ write style struck argument ++ ")"
  | .replacement name argument => "@" ++ name ++ "(" ++ write style struck argument ++ ")"

def facesText : Option Outcome → String
  | none => "F"
  | some faces => faces.value.text

def writeDiceTail (style : Style) (struck : Bool) : List (Sign × Outcome) → String
  | [] => ""
  | (op, o) :: rest =>
    " " ++ op.symbol ++ " " ++ write style struck o ++ writeDiceTail style struck rest

def writeMathTail (style : Style) (struck : Bool) : List (Operator × Outcome) → String
  | [] => ""
  | (op, o) :: rest =>
    " " ++ op.symbol ++ " " ++ write style struck o ++ writeMathTail style struck rest

def writeMembers (style : Style) (struck : Bool) : List Outcome → List String
  | [] => []
  | o :: os => write style struck o :: writeMembers style struck os
end

end Style

def Outcome.render (style : Style) (o : Outcome) : String :=
  let value := match style with
    | .plain => o.value.text
    | .markdown => "`" ++ o.value.text ++ "`"
  style.write false o ++ " = " ++ value

end DiceNotation

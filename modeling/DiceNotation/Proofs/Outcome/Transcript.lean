import DiceNotation.Outcome.Transcript
import Mathlib.Data.List.Basic

/-! The Markdown writer with its flag, and the writer of outcomes that is told whether it is inside
of something struck: they write the same, since the flag is down again wherever it is not told. -/

namespace DiceNotation

namespace Transcript

/-- The step leaves the flag as it is, and what it gives is told by the flag. -/
def Keeps {α : Type} (p : StateM Bool α) (result : Bool → α) : Prop :=
  ∀ flag, p flag = (result flag, flag)

section Keeps

variable {α β γ : Type} {p : StateM Bool α} {q : StateM Bool β} {result : Bool → α}
  {result' : Bool → β}

theorem keeps_pure (a : α) : Keeps (pure a) fun _ => a :=
  fun _ => rfl

theorem Keeps.map (h : Keeps p result) (f : α → β) :
    Keeps (do return f (← p)) fun flag => f (result flag) := by
  intro flag
  change (match p flag with | (a, flag) => (f a, flag)) = _
  rw [h flag]

theorem Keeps.map₂ (hp : Keeps p result) (hq : Keeps q result') (f : α → β → γ) :
    Keeps (do let a ← p; return f a (← q)) fun flag => f (result flag) (result' flag) := by
  intro flag
  change (match p flag with | (a, flag) => match q flag with | (b, flag) => (f a b, flag)) = _
  rw [hp flag]
  dsimp only
  rw [hq flag]

theorem Keeps.congr {told : Bool → α} (h : Keeps p result) (heq : ∀ flag, result flag = told flag) :
    Keeps p told := by
  intro flag
  rw [h flag, heq flag]

/-- The flag goes up for what is struck and comes down after it. -/
theorem Keeps.striking {inside : StateM Bool String} {text : Bool → String} (h : Keeps inside text)
    (valid : Bool) : Keeps (Transcript.striking valid inside) fun flag =>
      if Style.markdown.strikes flag valid then Style.strike (text true) else text flag := by
  intro flag
  cases valid with
  | true => cases flag <;> exact h _
  | false =>
    cases flag with
    | true => exact h true
    | false =>
      change (match inside true with | (text, _) => (Style.strike text, false)) = _
      rw [h true]
      rfl

end Keeps

theorem status_transcript (o : Outcome) : o.transcript.status = o.status := by
  obtain ⟨status, body, label⟩ := o
  rfl

theorem facesText_facesTranscript (faces : Option Outcome) :
    facesText (facesTranscript faces) = Style.facesText faces := by
  cases faces with
  | none => rfl
  | some faces =>
    rw [facesTranscript, facesText, status_transcript]
    rfl

theorem keeps_throws (throws : List Throw) : Keeps (writeMembers (throws.map Throw.transcript))
    fun flag => throws.map (Style.markdown.writeThrow flag) := by
  induction throws with
  | nil => exact keeps_pure []
  | cons t ts ih =>
    have ht : Keeps t.transcript.write (Style.markdown.writeThrow · t) := by
      rw [Throw.transcript, write, Style.labelText, String.append_empty]
      exact (keeps_pure (Style.markdown.throwText t)).striking t.valid
    rw [List.map_cons, writeMembers]
    exact ht.map₂ ih List.cons

mutual
theorem keeps_transcript : (o : Outcome) → Keeps o.transcript.write (Style.markdown.write · o)
  | ⟨status, body, label⟩ => by
    simp only [Outcome.transcript, write, Style.write]
    exact ((keeps_passage status.value body).map (· ++ Style.labelText label)).striking status.valid

theorem keeps_passage (value : Number) : (body : Body) →
    Keeps (writePassage value body.passage) (Style.markdown.writeBody · value body)
  | .number => keeps_pure value.text
  | .die count faces throws => by
    simp only [Body.passage, writePassage, Style.writeBody, facesText_facesTranscript,
      status_transcript]
    exact (keeps_throws throws).map fun texts =>
      count.value.text ++ "d" ++ Style.facesText faces ++ " (" ++ ", ".intercalate texts ++ ")"
  | .diceSum head tail => by
    simp only [Body.passage, writePassage, Style.writeBody]
    exact (keeps_transcript head).map₂ (keeps_diceTail tail) (· ++ ·)
  | .arithmetic head tail => by
    simp only [Body.passage, writePassage, Style.writeBody]
    exact (keeps_transcript head).map₂ (keeps_mathTail tail) (· ++ ·)
  | .group members => by
    simp only [Body.passage, writePassage, Style.writeBody]
    exact (keeps_members members).map fun texts => "\x7b" ++ ", ".intercalate texts ++ "\x7d"
  | .function f argument => by
    simp only [Body.passage, writePassage, Style.writeBody]
    exact (keeps_transcript argument).map (f.symbol ++ "(" ++ · ++ ")")
  | .replacement name argument => by
    simp only [Body.passage, writePassage, Style.writeBody]
    exact (keeps_transcript argument).map ("@" ++ name ++ "(" ++ · ++ ")")

theorem keeps_diceTail : (tail : List (Sign × Outcome)) →
    Keeps (writeDiceTail (diceTailTranscripts tail)) (Style.markdown.writeDiceTail · tail)
  | [] => keeps_pure ""
  | (op, o) :: rest => by
    simp only [diceTailTranscripts, writeDiceTail, Style.writeDiceTail]
    exact (keeps_transcript o).map₂ (keeps_diceTail rest) (" " ++ op.symbol ++ " " ++ · ++ ·)

theorem keeps_mathTail : (tail : List (Operator × Outcome)) →
    Keeps (writeMathTail (mathTailTranscripts tail)) (Style.markdown.writeMathTail · tail)
  | [] => keeps_pure ""
  | (op, o) :: rest => by
    simp only [mathTailTranscripts, writeMathTail, Style.writeMathTail]
    exact (keeps_transcript o).map₂ (keeps_mathTail rest) (" " ++ op.symbol ++ " " ++ · ++ ·)

theorem keeps_members : (members : List Outcome) →
    Keeps (writeMembers (memberTranscripts members)) (Style.markdown.writeMembers · members)
  | [] => keeps_pure []
  | o :: os => by
    simp only [memberTranscripts, writeMembers, Style.writeMembers]
    exact (keeps_transcript o).map₂ (keeps_members os) List.cons
end

/-- The transcript of an outcome is written as the outcome is, by a writer in any state. -/
theorem render_transcript (o : Outcome) (flag : Bool) :
    o.transcript.render flag = (o.render .markdown, false) := by
  change (match o.transcript.write false with
    | (text, flag) => (text ++ " = `" ++ o.transcript.status.value.text ++ "`", flag)) = _
  have hmarks : " = `" = " = " ++ "`" := by decide
  rw [keeps_transcript o false, status_transcript, hmarks]
  simp only [Outcome.render, Outcome.value, String.append_assoc]

end Transcript

end DiceNotation

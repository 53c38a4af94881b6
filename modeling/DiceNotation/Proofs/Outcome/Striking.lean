import DiceNotation.Proofs.Nesting
import DiceNotation.Proofs.Number.Text
import DiceNotation.Proofs.Outcome.Layout
import DiceNotation.Proofs.Outcome.Transcript

/-! Striking through in transcripts. A transcript is laid out from texts of its own and from what is
written of the parts in it, one after the other; what the Markdown writer does is to strike this
layout, with its flag down again in the end. -/

namespace DiceNotation

/-- What a transcript writes: some text, or a part of it. -/
inductive Fragment where
  | text (s : String)
  | child (t : Transcript)

namespace Fragment

def child? : Fragment → Option Transcript
  | .text _ => none
  | .child t => some t

def map (f : Transcript → Transcript) : Fragment → Fragment
  | .text s => .text s
  | .child t => .child (f t)

end Fragment

namespace Transcript

/-- The parts that are written out; of the count and the faces of a die, only the values are. -/
def children : Transcript → List Transcript
  | .throw _ _ | .node _ .number _ => []
  | .node _ (.die _ _ throws) _ => throws
  | .node _ (.diceSum head tail) _ => head :: tail.map Prod.snd
  | .node _ (.arithmetic head tail) _ => head :: tail.map Prod.snd
  | .node _ (.group members) _ => members
  | .node _ (.function _ argument) _ | .node _ (.replacement _ argument) _ => [argument]

theorem sizeOf_lt_of_mem_children {t u : Transcript} (h : u ∈ t.children) :
    sizeOf u < sizeOf t := by
  cases t with
  | throw t label => cases h
  | node status passage label =>
    rw [Transcript.node.sizeOf_spec]
    cases passage with
    | number => cases h
    | die count faces throws =>
      rw [Passage.die.sizeOf_spec]
      have hlt : sizeOf u < sizeOf throws := List.sizeOf_lt_of_mem h
      omega
    | group members =>
      rw [Passage.group.sizeOf_spec]
      have hlt : sizeOf u < sizeOf members := List.sizeOf_lt_of_mem h
      omega
    | diceSum head tail | arithmetic head tail =>
      simp only [Passage.diceSum.sizeOf_spec, Passage.arithmetic.sizeOf_spec]
      rcases List.mem_cons.mp h with rfl | h
      · omega
      · have hlt := Nested.sizeOf_lt_of_mem_tail h
        omega
    | function f argument | replacement name argument =>
      simp only [Passage.function.sizeOf_spec, Passage.replacement.sizeOf_spec]
      obtain rfl := List.mem_singleton.mp h
      omega

instance : Nested Transcript where
  children := children
  wellFounded := Subrelation.wf sizeOf_lt_of_mem_children (measure sizeOf).wf

def separated : List Transcript → List Fragment
  | [] => []
  | [t] => [.child t]
  | t :: u :: ts => .child t :: .text ", " :: separated (u :: ts)

def tailFragments {ω : Type} (symbol : ω → String) (tail : List (ω × Transcript)) : List Fragment :=
  tail.flatMap fun t => [.text (" " ++ symbol t.1 ++ " "), .child t.2]

def passageFragments (value : Number) : Passage → List Fragment
  | .number => [.text value.text]
  | .die count faces throws =>
    .text (count.status.value.text ++ "d" ++ facesText faces ++ " (") ::
      (separated throws ++ [.text ")"])
  | .diceSum head tail => .child head :: tailFragments Sign.symbol tail
  | .arithmetic head tail => .child head :: tailFragments Operator.symbol tail
  | .group members => .text "\x7b" :: (separated members ++ [.text "\x7d"])
  | .function f argument => [.text (f.symbol ++ "("), .child argument, .text ")"]
  | .replacement name argument => [.text ("@" ++ name ++ "("), .child argument, .text ")"]

/-- What is written of a transcript, but for its being struck. -/
def fragments : Transcript → List Fragment
  | .throw t label => [.text (Style.markdown.throwText t ++ Style.labelText label)]
  | .node status passage label =>
    passageFragments status.value passage ++ [.text (Style.labelText label)]

section Children

variable {ω : Type}

theorem filterMap_separated (ts : List Transcript) :
    (separated ts).filterMap Fragment.child? = ts := by
  induction ts using separated.induct with
  | case1 => rfl
  | case2 t => rfl
  | case3 t u ts ih =>
    simp only [separated, List.filterMap_cons, Fragment.child?, ih]

theorem filterMap_tailFragments (symbol : ω → String) (tail : List (ω × Transcript)) :
    (tailFragments symbol tail).filterMap Fragment.child? = tail.map Prod.snd := by
  induction tail with
  | nil => rfl
  | cons t tail ih =>
    rw [tailFragments, List.flatMap_cons, List.filterMap_append]
    exact congrArg (t.2 :: ·) ih

/-- The fragments hold the children, each where it is written. -/
theorem filterMap_fragments (t : Transcript) :
    t.fragments.filterMap Fragment.child? = t.children := by
  cases t with
  | throw t label => rfl
  | node status passage label =>
    cases passage <;>
      simp [fragments, passageFragments, children, List.filterMap_cons, Fragment.child?,
        filterMap_separated, filterMap_tailFragments, List.filterMap_append]

theorem mem_children_of_mem_fragments {t u : Transcript} (h : .child u ∈ t.fragments) :
    u ∈ t.children := by
  rw [← filterMap_fragments]
  exact List.mem_filterMap.mpr ⟨.child u, h, rfl⟩

end Children

/-- A transcript as it is laid out in its text. -/
def layout (t : Transcript) : Layout Transcript :=
  .part t (t.fragments.attach.map fun
    | ⟨.text s, _⟩ => .text s.toList
    | ⟨.child u, _⟩ => layout u)
termination_by t
decreasing_by exact mem_children_of_mem_fragments ‹_›

end Transcript

def Fragment.layout : Fragment → Layout Transcript
  | .text s => .text s.toList
  | .child t => t.layout

namespace Transcript

theorem layout_eq (t : Transcript) : t.layout = .part t (t.fragments.map Fragment.layout) := by
  rw [layout, List.map_subtype (g := Fragment.layout), List.unattach_attach]
  rintro (s | u) h <;> rfl

theorem nodesAll_map_layout (ps : List Fragment) : Layout.nodesAll (ps.map Fragment.layout) =
    (ps.filterMap Fragment.child?).flatMap fun t => t.layout.nodes := by
  induction ps with
  | nil => rfl
  | cons p ps ih =>
    rw [List.map_cons, Layout.nodesAll, ih]
    cases p <;> rfl

/-- The layout has the parts of the transcript, from left to right. -/
theorem nodes_layout (t : Transcript) : t.layout.nodes = Nested.parts t := by
  induction t using Nested.induct with
  | step t ih =>
    rw [layout_eq, Layout.nodes, nodesAll_map_layout, filterMap_fragments, Nested.parts_eq]
    exact congrArg (t :: ·) (List.flatMap_congr ih)

theorem forall_layout {P : Layout Transcript → Prop} {t : Transcript}
    (htext : ∀ s, .text s ∈ t.fragments → P (.text s.toList))
    (hchild : ∀ u ∈ t.children, P u.layout) : ∀ l ∈ t.fragments.map Fragment.layout, P l := by
  refine List.forall_mem_map.mpr fun p hp => ?_
  cases p with
  | text s => exact htext s hp
  | child u => exact hchild u (mem_children_of_mem_fragments hp)

theorem each_layout (t : Transcript) : t.layout.Each fun u cs => cs = u.layout.plain := by
  induction t using Nested.induct with
  | step t ih =>
    rw [layout_eq]
    refine .part ?_ (forall_layout (fun s _ => .text s.toList) ih)
    rw [layout_eq, Layout.plain]

section Valid

mutual
/-- The transcript with everything in it valid. -/
def allValid : Transcript → Transcript
  | .throw t label => .throw { t with status := { t.status with valid := true } } label
  | .node status passage label => .node { status with valid := true } (allValidPassage passage) label

def allValidPassage : Passage → Passage
  | .number => .number
  | .die count faces throws =>
    .die (allValid count) (allValidFaces faces) (allValidMembers throws)
  | .diceSum head tail => .diceSum (allValid head) (allValidDiceTail tail)
  | .arithmetic head tail => .arithmetic (allValid head) (allValidMathTail tail)
  | .group members => .group (allValidMembers members)
  | .function f argument => .function f (allValid argument)
  | .replacement name argument => .replacement name (allValid argument)

def allValidFaces : Option Transcript → Option Transcript
  | none => none
  | some faces => some (allValid faces)

def allValidDiceTail : List (Sign × Transcript) → List (Sign × Transcript)
  | [] => []
  | (op, t) :: rest => (op, allValid t) :: allValidDiceTail rest

def allValidMathTail : List (Operator × Transcript) → List (Operator × Transcript)
  | [] => []
  | (op, t) :: rest => (op, allValid t) :: allValidMathTail rest

def allValidMembers : List Transcript → List Transcript
  | [] => []
  | t :: ts => allValid t :: allValidMembers ts
end

theorem valid_allValid (t : Transcript) : t.allValid.valid = true := by
  cases t <;> rfl

theorem value_allValid (t : Transcript) : t.allValid.status.value = t.status.value := by
  cases t <;> rfl

theorem facesText_allValidFaces (faces : Option Transcript) :
    facesText (allValidFaces faces) = facesText faces := by
  cases faces with
  | none => rfl
  | some faces => exact congrArg Number.text (value_allValid faces)

theorem allValidMembers_eq (ts : List Transcript) : allValidMembers ts = ts.map allValid := by
  induction ts with
  | nil => rfl
  | cons t ts ih => rw [allValidMembers, ih, List.map_cons]

theorem allValidDiceTail_eq (tail : List (Sign × Transcript)) :
    allValidDiceTail tail = tail.map (Prod.map id allValid) := by
  induction tail with
  | nil => rfl
  | cons t tail ih =>
    rw [allValidDiceTail, ih]
    rfl

theorem allValidMathTail_eq (tail : List (Operator × Transcript)) :
    allValidMathTail tail = tail.map (Prod.map id allValid) := by
  induction tail with
  | nil => rfl
  | cons t tail ih =>
    rw [allValidMathTail, ih]
    rfl

theorem separated_map (f : Transcript → Transcript) (ts : List Transcript) :
    separated (ts.map f) = (separated ts).map (Fragment.map f) := by
  induction ts using separated.induct with
  | case1 => rfl
  | case2 t => rfl
  | case3 t u ts ih =>
    rw [separated, List.map_cons, List.map_cons, List.map_cons, List.map_cons, ← ih]
    rfl

theorem tailFragments_map {ω : Type} (symbol : ω → String) (f : Transcript → Transcript)
    (tail : List (ω × Transcript)) :
    tailFragments symbol (tail.map (Prod.map id f)) =
      (tailFragments symbol tail).map (Fragment.map f) := by
  rw [tailFragments, tailFragments, List.flatMap_map, List.map_flatMap]
  rfl

theorem fragments_allValid (t : Transcript) :
    t.allValid.fragments = t.fragments.map (Fragment.map allValid) := by
  cases t with
  | throw t label => rfl
  | node status passage label =>
    cases passage <;>
      simp only [allValid, allValidPassage, fragments, passageFragments, List.map_append, List.map_cons,
        List.map_nil, Fragment.map, allValidMembers_eq, allValidDiceTail_eq, allValidMathTail_eq,
        separated_map, tailFragments_map, value_allValid, facesText_allValidFaces]

theorem layout_allValid (t : Transcript) : t.allValid.layout = t.layout.map allValid := by
  induction t using Nested.induct with
  | step t ih =>
    have hfragments : (t.fragments.map (Fragment.map allValid)).map Fragment.layout =
        (t.fragments.map Fragment.layout).map (Layout.map allValid) := by
      rw [List.map_map, List.map_map]
      refine List.map_congr_left fun p hp => ?_
      cases p with
      | text s => rfl
      | child u => exact ih u (mem_children_of_mem_fragments hp)
    rw [layout_eq, layout_eq, Layout.map, fragments_allValid, hfragments, Layout.mapAll_eq]

end Valid

section Written

/-- What fragments are in the text, when the flag is up or not. -/
def written (flag : Bool) (ps : List Fragment) : String :=
  .ofList (Layout.struckAll valid flag (ps.map Fragment.layout))

theorem written_nil (flag : Bool) : written flag [] = "" :=
  rfl

theorem written_text (flag : Bool) (s : String) (ps : List Fragment) :
    written flag (.text s :: ps) = s ++ written flag ps := by
  simp [written, Fragment.layout, Layout.struckAll, Layout.struck]

theorem written_child (flag : Bool) (t : Transcript) (ps : List Fragment) :
    written flag (.child t :: ps) = .ofList (t.layout.struck valid flag) ++ written flag ps := by
  simp [written, Fragment.layout, Layout.struckAll]

theorem written_append (flag : Bool) (ps qs : List Fragment) :
    written flag (ps ++ qs) = written flag ps ++ written flag qs := by
  induction ps with
  | nil => rw [List.nil_append, written_nil, String.empty_append]
  | cons p ps ih =>
    cases p with
    | text s => rw [List.cons_append, written_text, written_text, ih, String.append_assoc]
    | child t => rw [List.cons_append, written_child, written_child, ih, String.append_assoc]

variable {t : Transcript} {ts : List Transcript}

/-- The writer strikes the layout, and leaves its flag alone. -/
def Follows (t : Transcript) : Prop :=
  Keeps t.write fun flag => .ofList (t.layout.struck valid flag)

theorem keeps_writeMembers (h : ∀ t ∈ ts, t.Follows) : Keeps (writeMembers ts) fun flag =>
    ts.map fun t => .ofList (t.layout.struck valid flag) := by
  induction ts with
  | nil => exact keeps_pure []
  | cons t ts ih =>
    obtain ⟨ht, hts⟩ := List.forall_mem_cons.mp h
    rw [writeMembers]
    exact Keeps.map₂ ht (ih hts) List.cons

theorem intercalate_eq_written (flag : Bool) (ts : List Transcript) :
    ", ".intercalate (ts.map fun t => .ofList (t.layout.struck valid flag)) =
      written flag (separated ts) := by
  induction ts using separated.induct with
  | case1 => rfl
  | case2 t => simp [separated, written_child, written_nil]
  | case3 t u ts ih =>
    rw [List.map_cons] at ih ⊢
    rw [List.map_cons, String.intercalate_cons_cons, ih, separated, written_child, written_text,
      String.append_assoc]

theorem written_tailFragments {ω : Type} (symbol : ω → String) (flag : Bool) (t : ω × Transcript)
    (tail : List (ω × Transcript)) : written flag (tailFragments symbol (t :: tail)) =
      " " ++ symbol t.1 ++ " " ++ .ofList (t.2.layout.struck valid flag) ++
        written flag (tailFragments symbol tail) := by
  rw [String.append_assoc, ← written_child, ← written_text]
  rfl

/-- The tails of both kinds of sums are written alike. -/
theorem keeps_tail {ω : Type} {symbol : ω → String}
    {writeTail : List (ω × Transcript) → StateM Bool String} (hnil : writeTail [] = pure "")
    (hcons : ∀ op t rest, writeTail ((op, t) :: rest) = do
      let text ← t.write
      return " " ++ symbol op ++ " " ++ text ++ (← writeTail rest))
    {tail : List (ω × Transcript)} (h : ∀ t ∈ tail.map Prod.snd, t.Follows) :
    Keeps (writeTail tail) (written · (tailFragments symbol tail)) := by
  induction tail with
  | nil =>
    rw [hnil]
    exact keeps_pure ""
  | cons t tail ih =>
    obtain ⟨ht, htail⟩ := List.forall_mem_cons.mp h
    rw [hcons]
    exact Keeps.congr (Keeps.map₂ ht (ih htail) (" " ++ symbol t.1 ++ " " ++ · ++ ·)) fun flag =>
      (written_tailFragments symbol flag t tail).symm

theorem keeps_writeDiceTail {tail : List (Sign × Transcript)}
    (h : ∀ t ∈ tail.map Prod.snd, t.Follows) :
    Keeps (writeDiceTail tail) (written · (tailFragments Sign.symbol tail)) :=
  keeps_tail (by rw [writeDiceTail]) (fun _ _ _ => by rw [writeDiceTail]) h

theorem keeps_writeMathTail {tail : List (Operator × Transcript)}
    (h : ∀ t ∈ tail.map Prod.snd, t.Follows) :
    Keeps (writeMathTail tail) (written · (tailFragments Operator.symbol tail)) :=
  keeps_tail (by rw [writeMathTail]) (fun _ _ _ => by rw [writeMathTail]) h

theorem keeps_writePassage (status : Status) (passage : Passage) (label : Option String)
    (h : ∀ t ∈ children (.node status passage label), t.Follows) :
    Keeps (writePassage status.value passage)
      (written · (passageFragments status.value passage)) := by
  cases passage with
  | number =>
    rw [writePassage]
    exact Keeps.congr (keeps_pure _) fun flag => by
      rw [passageFragments, written_text, written_nil, String.append_empty]
  | die count faces throws =>
    have hthrows : ∀ t ∈ throws, t.Follows := h
    rw [writePassage]
    refine Keeps.congr (Keeps.map (keeps_writeMembers hthrows) fun texts =>
      count.status.value.text ++ "d" ++ facesText faces ++ " (" ++ ", ".intercalate texts ++ ")")
      fun flag => ?_
    rw [passageFragments, written_text, written_append, written_text, written_nil,
      ← intercalate_eq_written, String.append_empty, ← String.append_assoc]
  | group members =>
    have hmembers : ∀ t ∈ members, t.Follows := h
    rw [writePassage]
    refine Keeps.congr (Keeps.map (keeps_writeMembers hmembers) fun texts =>
      "\x7b" ++ ", ".intercalate texts ++ "\x7d") fun flag => ?_
    rw [passageFragments, written_text, written_append, written_text, written_nil,
      ← intercalate_eq_written, String.append_empty, ← String.append_assoc]
  | diceSum head tail =>
    obtain ⟨hhead, htail⟩ := List.forall_mem_cons.mp h
    rw [writePassage]
    exact Keeps.congr (Keeps.map₂ hhead (keeps_writeDiceTail htail) (· ++ ·)) fun flag => by
      rw [passageFragments, written_child]
  | arithmetic head tail =>
    obtain ⟨hhead, htail⟩ := List.forall_mem_cons.mp h
    rw [writePassage]
    exact Keeps.congr (Keeps.map₂ hhead (keeps_writeMathTail htail) (· ++ ·)) fun flag => by
      rw [passageFragments, written_child]
  | function f argument =>
    rw [writePassage]
    refine Keeps.congr (Keeps.map (h argument List.mem_cons_self) (f.symbol ++ "(" ++ · ++ ")"))
      fun flag => ?_
    rw [passageFragments, written_text, written_child, written_text, written_nil, String.append_empty,
      ← String.append_assoc]
  | replacement name argument =>
    rw [writePassage]
    refine Keeps.congr (Keeps.map (h argument List.mem_cons_self) ("@" ++ name ++ "(" ++ · ++ ")"))
      fun flag => ?_
    rw [passageFragments, written_text, written_child, written_text, written_nil, String.append_empty,
      ← String.append_assoc]

theorem strike_ofList (cs : List Char) : Style.strike (.ofList cs) = .ofList (mark ++ cs ++ mark) := by
  rw [String.ofList_append, String.ofList_append]
  rfl

theorem follows_of_striking {inside : StateM Bool String} (hwrite : t.write = striking t.valid inside)
    (hinside : Keeps inside (written · t.fragments)) : t.Follows := by
  unfold Follows
  rw [hwrite, layout_eq]
  refine Keeps.congr (hinside.striking t.valid) fun flag => ?_
  rw [Layout.struck]
  split
  · exact strike_ofList _
  · rfl

/-- The Markdown writer strikes the layout of a transcript, and leaves its flag as it is. -/
theorem follows (t : Transcript) : t.Follows := by
  induction t using Nested.induct with
  | step t ih =>
    cases t with
    | throw t label =>
      refine follows_of_striking (by rw [write]; rfl) (Keeps.congr (keeps_pure _) fun flag => ?_)
      rw [fragments, written_text, written_nil, String.append_empty]
    | node status passage label =>
      refine follows_of_striking (by rw [write]; rfl) (Keeps.congr
        ((keeps_writePassage status passage label ih).map (· ++ Style.labelText label)) fun flag => ?_)
      rw [fragments, written_append, written_text, written_nil, String.append_empty]

end Written

section Tildes

/-- What is written of a transcript as it was given: its label, and the name of a replacement. -/
def names : Transcript → List String
  | .node _ (.replacement name _) label => name :: label.toList
  | t => t.label.toList

theorem tilde_not_mem_labelText {label : Option String} (h : ∀ s ∈ label.toList, '~' ∉ s.toList) :
    '~' ∉ (Style.labelText label).toList := by
  cases label with
  | none => decide
  | some label =>
    have hlabel := h label List.mem_cons_self
    simp [Style.labelText, hlabel]

theorem tilde_not_mem_throwText (t : Throw) : '~' ∉ (Style.markdown.throwText t).toList := by
  have hvalue := Number.tilde_not_mem_text t.value
  unfold Style.throwText
  dsimp only
  split <;> split <;> split <;> simp [hvalue]

theorem eq_of_text_mem_separated {s : String} {ts : List Transcript} (h : .text s ∈ separated ts) :
    s = ", " := by
  induction ts using separated.induct with
  | case1 => cases h
  | case2 t => simp [separated] at h
  | case3 t u ts ih =>
    rw [separated] at h
    rcases List.mem_cons.mp h with heq | h
    · cases heq
    · rcases List.mem_cons.mp h with heq | h
      · exact Fragment.text.inj heq
      · exact ih h

theorem exists_of_text_mem_tailFragments {ω : Type} {symbol : ω → String} {s : String}
    {tail : List (ω × Transcript)} (h : .text s ∈ tailFragments symbol tail) :
    ∃ op, s = " " ++ symbol op ++ " " := by
  obtain ⟨t, -, h⟩ := List.mem_flatMap.mp h
  simp only [List.mem_cons, List.not_mem_nil, or_false, reduceCtorEq] at h
  exact ⟨t.1, Fragment.text.inj h⟩

theorem tilde_not_mem_separated {s close : String} (hclose : '~' ∉ close.toList)
    {ts : List Transcript} (h : .text s ∈ separated ts ++ [.text close]) : '~' ∉ s.toList := by
  rcases List.mem_append.mp h with h | h
  · rw [eq_of_text_mem_separated h]
    decide
  · rwa [Fragment.text.inj (List.mem_singleton.mp h)]

theorem tilde_not_mem_enclosed {s opening : String} (hopening : '~' ∉ opening.toList)
    {t : Transcript} (h : Fragment.text s ∈ [.text opening, .child t, .text ")"]) :
    '~' ∉ s.toList := by
  simp only [List.mem_cons, List.not_mem_nil, or_false, reduceCtorEq, false_or] at h
  rcases h with h | h
  · rwa [Fragment.text.inj h]
  · rw [Fragment.text.inj h]
    decide

theorem tilde_not_mem_passageFragments {value : Number} {passage : Passage} {s : String}
    (hname : ∀ name argument, passage = .replacement name argument → '~' ∉ name.toList)
    (hs : .text s ∈ passageFragments value passage) : '~' ∉ s.toList := by
  cases passage with
  | number =>
    rw [Fragment.text.inj (List.mem_singleton.mp hs)]
    exact Number.tilde_not_mem_text value
  | die count faces throws =>
    rcases List.mem_cons.mp hs with h | h
    · have hcount := Number.tilde_not_mem_text count.status.value
      have hfaces : '~' ∉ (facesText faces).toList := by
        cases faces with
        | none => decide
        | some faces => exact Number.tilde_not_mem_text faces.status.value
      rw [Fragment.text.inj h]
      simp [hcount, hfaces]
    · exact tilde_not_mem_separated (by decide) h
  | group members =>
    rcases List.mem_cons.mp hs with h | h
    · rw [Fragment.text.inj h]
      decide
    · exact tilde_not_mem_separated (by decide) h
  | diceSum head tail =>
    rcases List.mem_cons.mp hs with h | h
    · cases h
    · obtain ⟨op, rfl⟩ := exists_of_text_mem_tailFragments h
      cases op <;> decide
  | arithmetic head tail =>
    rcases List.mem_cons.mp hs with h | h
    · cases h
    · obtain ⟨op, rfl⟩ := exists_of_text_mem_tailFragments h
      cases op <;> decide
  | function f argument =>
    have hopening : '~' ∉ (f.symbol ++ "(").toList := by cases f <;> decide
    exact tilde_not_mem_enclosed hopening hs
  | replacement name argument =>
    have hopening : '~' ∉ ("@" ++ name ++ "(").toList := by
      have hname := hname name argument rfl
      simp [hname]
    exact tilde_not_mem_enclosed hopening hs

theorem tilde_not_mem_fragment {t : Transcript} (h : ∀ s ∈ t.names, '~' ∉ s.toList) {s : String}
    (hs : .text s ∈ t.fragments) : '~' ∉ s.toList := by
  cases t with
  | throw t label =>
    have htext := tilde_not_mem_throwText t
    have hlabel : '~' ∉ (Style.labelText label).toList := tilde_not_mem_labelText h
    rw [Fragment.text.inj (List.mem_singleton.mp hs)]
    simp [htext, hlabel]
  | node status passage label =>
    have hlabels : ∀ s ∈ label.toList, '~' ∉ s.toList := by
      cases passage with
      | replacement name argument => exact fun s hs => h s (List.mem_cons_of_mem name hs)
      | number | die | diceSum | arithmetic | group | function => exact h
    rcases List.mem_append.mp hs with hs | hs
    · refine tilde_not_mem_passageFragments ?_ hs
      rintro name argument rfl
      exact h name List.mem_cons_self
    · rw [Fragment.text.inj (List.mem_singleton.mp hs)]
      exact tilde_not_mem_labelText hlabels

theorem tilde_not_mem_plain {t : Transcript}
    (h : ∀ u ∈ Nested.parts t, ∀ s ∈ u.names, '~' ∉ s.toList) : '~' ∉ t.layout.plain := by
  induction t using Nested.induct with
  | step t ih =>
    obtain ⟨hown, hinside⟩ := (Nested.forall_parts_iff t).mp h
    rw [layout_eq, Layout.plain]
    intro hmem
    obtain ⟨l, hl, hc⟩ := Layout.mem_plainAll hmem
    exact forall_layout (P := fun l => '~' ∉ l.plain) (fun s hs => tilde_not_mem_fragment hown hs)
      (fun u hu => ih u hu (hinside u hu)) l hl hc

end Tildes

/-- The places of what is written out, in a text that nothing is struck in. -/
def places (t : Transcript) : List (Place Transcript) :=
  t.layout.places [] 0

/-- A text without tildes, and the same with marks: around each part that is not valid and stands in
no part that is not, and nowhere else. -/
structure StruckThrough (t : Transcript) (plain marked : List Char) : Prop where
  erased : erased marked = plain
  clean : '~' ∉ plain
  parts : t.places.map Place.node = Nested.parts t
  texts : ∀ p ∈ t.places, p.Holds plain p.node.allValid.text.toList
  marks : marked = strikeSpans (Layout.spans valid t.places) plain
  disjoint : (t.places.filter (Layout.isStruck valid)).Pairwise fun p q => p.stop ≤ q.start

theorem text_eq (t : Transcript) : t.text = .ofList (t.layout.struck valid false) := by
  have hwrite : t.write false = _ := t.follows false
  rw [text, StateT.run, hwrite]

theorem toList_text (t : Transcript) : t.text.toList = t.layout.struck valid false := by
  rw [text_eq, String.toList_ofList]

theorem toList_text_allValid (t : Transcript) : t.allValid.text.toList = t.layout.plain := by
  rw [toList_text, layout_allValid, Layout.struck_map_of_valid valid_allValid]

theorem keeps_mapM (ts : List Transcript) :
    Keeps (ts.mapM write) fun flag => ts.map fun t => .ofList (t.layout.struck valid flag) := by
  induction ts with
  | nil => exact keeps_pure []
  | cons t ts ih =>
    rw [List.mapM_cons]
    exact Keeps.map₂ t.follows ih List.cons

/-- What a new writer writes is the text of the transcript with all of it valid, struck around the
outermost parts that are not. The flag is afterwards what it was, so that one writer writes transcripts
one after the other as new ones would. -/
theorem struckThrough_text (t : Transcript)
    (h : ∀ u ∈ Nested.parts t, ∀ s ∈ u.names, '~' ∉ s.toList) :
    t.StruckThrough t.allValid.text.toList t.text.toList ∧
    (∀ flag, (t.write.run flag).2 = flag) ∧
    ∀ ts : List Transcript, (ts.mapM write).run false = (ts.map text, false) := by
  have hclean := tilde_not_mem_plain h
  refine ⟨?_, fun flag => ?_, fun ts => ?_⟩
  · rw [toList_text_allValid, toList_text]
    constructor
    case erased =>
      have herased : erased (t.layout.struck valid false ++ []) = t.layout.plain ++ erased [] :=
        Layout.erased_struck false t.layout hclean []
      rwa [List.append_nil, erased, List.append_nil] at herased
    case clean => exact hclean
    case parts => rw [places, Layout.map_node_places, nodes_layout]
    case texts =>
      intro p hp
      obtain ⟨before, text, after, hplain, htext, hstart, hstop, -⟩ :=
        Layout.exists_of_mem_places t.layout t.each_layout hp
      rw [toList_text_allValid, ← htext]
      rw [Nat.zero_add] at hstart
      exact ⟨before, after, hplain, hstart, hstart ▸ hstop⟩
    case marks =>
      have hmarks : strikeSpans (Layout.spans valid t.places) ([] ++ t.layout.plain ++ []) =
          [] ++ t.layout.struck valid false ++ [] := Layout.strikeSpans_places t.layout rfl [] []
      rw [List.nil_append, List.nil_append, List.append_nil, List.append_nil] at hmarks
      exact hmarks.symm
    case disjoint => exact Layout.pairwise_struck t.layout [] 0
  · have hwrite : t.write flag = _ := t.follows flag
    rw [StateT.run, hwrite]
  · have hwrite : ts.mapM write false = _ := keeps_mapM ts false
    rw [StateT.run, hwrite, List.map_congr_left fun t _ => t.text_eq]

/-- A member that is dropped with both of its throws is struck once, and a dropped throw in a member
that is kept is struck by itself. -/
theorem struckThrough_text_group : ∃ t : Transcript,
    t.text = "floor(\x7b~~2d6 (3, **1**) [low]~~, 2d6 (5, ~~4~~)\x7d)" ∧
    t.allValid.text = "floor(\x7b2d6 (3, **1**) [low], 2d6 (5, 4)\x7d)" ∧
    t.StruckThrough t.allValid.text.toList t.text.toList := by
  let throw (face : Int64) (valid : Bool) : Transcript :=
    .throw { Throw.fresh (.sides 6) face 0 with status.valid := valid } none
  let number (i : Int64) : Transcript := .node (.ofValue (.int i)) .number none
  let die (status : Status) (throws : List Transcript) (label : Option String) : Transcript :=
    .node status (.die (number 2) (some (number 6)) throws) label
  refine ⟨.node (.ofValue (.int 5)) (.function .floor (.node (.ofValue (.int 5)) (.group
    [die (Status.ofValue (.int 0)).drop [throw 3 false, throw 1 false] (some "low"),
      die (.ofValue (.int 5)) [throw 5 true, throw 4 false] none]) none)) none, ?_, ?_, ?_⟩
  · decide +kernel
  · decide +kernel
  · refine (struckThrough_text _ ?_).1
    simp [Nested.parts_eq, Nested.children, children, names, label, throw, number, die]

end Transcript

end DiceNotation

import DiceNotation.Outcome.Render
import Mathlib.Data.List.Basic

/-! Text in which parts stand inside of parts. Each part has its place in the text, and striking goes
around the outermost parts that are not valid; so its marks come in pairs that have nothing to do with
each other, and to take them out again leaves the text. -/

namespace DiceNotation

/-- A text with the parts that it is made of: each is the text of something. -/
inductive Layout (ν : Type) where
  | text (cs : List Char)
  | part (node : ν) (inside : List (Layout ν))

/-- Where something stands in a text, and what it stands inside of, from the outside. -/
structure Place (ν : Type) where
  node : ν
  around : List ν
  start : Nat
  stop : Nat

/-- The text stands at the place, in a text that it is a stretch of. -/
def Place.Holds {ν : Type} (p : Place ν) (whole text : List Char) : Prop :=
  ∃ before after, whole = before ++ text ++ after ∧ p.start = before.length ∧
    p.stop = before.length + text.length

def mark : List Char :=
  ['~', '~']

/-- The text with marks around one stretch of it. -/
def strikeSpan (span : Nat × Nat) (cs : List Char) : List Char :=
  cs.take span.1 ++ mark ++ (cs.drop span.1).take (span.2 - span.1) ++ mark ++ cs.drop span.2

/-- The text with marks around stretches of it, put in from the last on: what stands before a stretch
stays where it is. -/
def strikeSpans (spans : List (Nat × Nat)) (cs : List Char) : List Char :=
  spans.foldr strikeSpan cs

/-- The text without its marks. -/
def erased : List Char → List Char
  | '~' :: '~' :: cs => erased cs
  | c :: cs => c :: erased cs
  | [] => []

section Marks

theorem strikeSpan_append {span : Nat × Nat} {before text after : List Char}
    (hstart : span.1 = before.length) (hstop : span.2 = before.length + text.length) :
    strikeSpan span (before ++ text ++ after) = before ++ (mark ++ text ++ mark) ++ after := by
  have htext : (text ++ after).take (span.2 - span.1) = text := by
    rw [hstop, hstart, Nat.add_sub_cancel_left, List.take_left]
  have hafter : (before ++ text ++ after).drop span.2 = after := by
    rw [hstop, ← List.length_append, List.drop_left]
  rw [strikeSpan, hafter, List.append_assoc before, hstart, List.take_left, List.drop_left, ← hstart,
    htext]
  simp only [List.append_assoc]

theorem erased_mark (cs : List Char) : erased (mark ++ cs) = erased cs := by
  rw [mark, List.cons_append, List.cons_append, List.nil_append, erased]

theorem erased_append {cs : List Char} (h : '~' ∉ cs) (rest : List Char) :
    erased (cs ++ rest) = cs ++ erased rest := by
  induction cs with
  | nil => rfl
  | cons c cs ih =>
    obtain ⟨hc, hcs⟩ := not_or.mp (mt List.mem_cons.mpr h)
    rw [List.cons_append, erased, ih hcs, List.cons_append]
    rintro _ rfl
    exact absurd rfl hc

end Marks

namespace Layout

variable {ν : Type}

mutual
/-- The text alone. -/
def plain : Layout ν → List Char
  | .text cs => cs
  | .part _ ls => plainAll ls

def plainAll : List (Layout ν) → List Char
  | [] => []
  | l :: ls => plain l ++ plainAll ls
end

mutual
def map (f : ν → ν) : Layout ν → Layout ν
  | .text cs => .text cs
  | .part node ls => .part (f node) (mapAll f ls)

def mapAll (f : ν → ν) : List (Layout ν) → List (Layout ν)
  | [] => []
  | l :: ls => map f l :: mapAll f ls
end

mutual
/-- All that the text has parts of. -/
def nodes : Layout ν → List ν
  | .text _ => []
  | .part node ls => node :: nodesAll ls

def nodesAll : List (Layout ν) → List ν
  | [] => []
  | l :: ls => nodes l ++ nodesAll ls
end

mutual
/-- The places of the parts of a text that starts at a position. -/
def places (around : List ν) (start : Nat) : Layout ν → List (Place ν)
  | .text _ => []
  | .part node ls =>
    ⟨node, around, start, start + (plainAll ls).length⟩ :: placesAll (around ++ [node]) start ls

def placesAll (around : List ν) (start : Nat) : List (Layout ν) → List (Place ν)
  | [] => []
  | l :: ls => places around start l ++ placesAll around (start + (plain l).length) ls
end

/-- What is said of each part and its text. -/
inductive Each (Q : ν → List Char → Prop) : Layout ν → Prop
  | text (cs : List Char) : Each Q (.text cs)
  | part {node : ν} {ls : List (Layout ν)} (own : Q node (plainAll ls))
      (inside : ∀ l ∈ ls, Each Q l) : Each Q (.part node ls)

theorem mem_plainAll {c : Char} {ls : List (Layout ν)} (h : c ∈ plainAll ls) :
    ∃ l ∈ ls, c ∈ l.plain := by
  induction ls with
  | nil => exact absurd h List.not_mem_nil
  | cons l ls ih =>
    rcases List.mem_append.mp h with h | h
    · exact ⟨l, List.mem_cons_self, h⟩
    · obtain ⟨l', hl', hc⟩ := ih h
      exact ⟨l', List.mem_cons_of_mem _ hl', hc⟩

theorem mapAll_eq (f : ν → ν) (ls : List (Layout ν)) : mapAll f ls = ls.map (map f) := by
  induction ls with
  | nil => rfl
  | cons l ls ih => rw [mapAll, ih, List.map_cons]

mutual
theorem plain_map (f : ν → ν) : (l : Layout ν) → (l.map f).plain = l.plain
  | .text _ => rfl
  | .part _ ls => plainAll_mapAll f ls

theorem plainAll_mapAll (f : ν → ν) : (ls : List (Layout ν)) → plainAll (mapAll f ls) = plainAll ls
  | [] => rfl
  | l :: ls => by rw [mapAll, plainAll, plainAll, plain_map f l, plainAll_mapAll f ls]
end

section Places

variable {Q : ν → List Char → Prop}

mutual
/-- A place holds the text of its part, and its part stands inside of what it should. -/
theorem exists_of_mem_places : (l : Layout ν) → l.Each Q → ∀ {around : List ν} {start : Nat}
    {p : Place ν}, p ∈ l.places around start → ∃ before text after, l.plain = before ++ text ++ after ∧
      Q p.node text ∧ p.start = start + before.length ∧ p.stop = p.start + text.length ∧
      around <+: p.around
  | .text _, _, _, _, _, hp => absurd hp List.not_mem_nil
  | .part node ls, .part own inside, around, start, p, hp => by
    rcases List.mem_cons.mp hp with rfl | hp
    · exact ⟨[], plainAll ls, [], (List.append_nil _).symm, own, rfl, rfl, List.prefix_refl _⟩
    · obtain ⟨before, text, after, hplain, hQ, hstart, hstop, haround⟩ :=
        exists_of_mem_placesAll ls inside hp
      exact ⟨before, text, after, hplain, hQ, hstart, hstop,
        (List.prefix_append around [node]).trans haround⟩

theorem exists_of_mem_placesAll : (ls : List (Layout ν)) → (∀ l ∈ ls, l.Each Q) →
    ∀ {around : List ν} {start : Nat} {p : Place ν}, p ∈ placesAll around start ls →
      ∃ before text after, plainAll ls = before ++ text ++ after ∧ Q p.node text ∧
        p.start = start + before.length ∧ p.stop = p.start + text.length ∧ around <+: p.around
  | [], _, _, _, _, hp => absurd hp List.not_mem_nil
  | l :: ls, h, around, start, p, hp => by
    obtain ⟨hl, hls⟩ := List.forall_mem_cons.mp h
    rcases List.mem_append.mp hp with hp | hp
    · obtain ⟨before, text, after, hplain, hrest⟩ := exists_of_mem_places l hl hp
      exact ⟨before, text, after ++ plainAll ls, by rw [plainAll, hplain, List.append_assoc], hrest⟩
    · obtain ⟨before, text, after, hplain, hQ, hstart, hstop, haround⟩ :=
        exists_of_mem_placesAll ls hls hp
      refine ⟨l.plain ++ before, text, after, ?_, hQ, ?_, hstop, haround⟩
      · rw [plainAll, hplain, ← List.append_assoc, ← List.append_assoc]
      · rw [hstart, List.length_append, Nat.add_assoc]
end

mutual
theorem each_trivial : (l : Layout ν) → l.Each fun _ _ => True
  | .text cs => .text cs
  | .part _ ls => .part trivial (forall_each_trivial ls)

theorem forall_each_trivial : (ls : List (Layout ν)) → ∀ l ∈ ls, l.Each fun _ _ => True
  | [] => List.forall_mem_nil _
  | l :: ls => List.forall_mem_cons.mpr ⟨each_trivial l, forall_each_trivial ls⟩
end

variable {l : Layout ν} {ls : List (Layout ν)} {around : List ν} {start : Nat} {p : Place ν}

theorem bounds_of_mem_places (hp : p ∈ l.places around start) :
    start ≤ p.start ∧ p.stop ≤ start + l.plain.length := by
  obtain ⟨before, text, after, hplain, -, hstart, hstop, -⟩ :=
    exists_of_mem_places l (each_trivial l) hp
  rw [hplain, List.length_append, List.length_append]
  omega

theorem le_start_of_mem_placesAll (hp : p ∈ placesAll around start ls) : start ≤ p.start := by
  obtain ⟨before, text, after, -, -, hstart, -⟩ :=
    exists_of_mem_placesAll ls (forall_each_trivial ls) hp
  omega

mutual
theorem map_node_places : (l : Layout ν) → ∀ (around : List ν) (start : Nat),
    (l.places around start).map Place.node = l.nodes
  | .text _, _, _ => rfl
  | .part node ls, around, start => by
    rw [places, List.map_cons, nodes, map_node_placesAll ls]

theorem map_node_placesAll : (ls : List (Layout ν)) → ∀ (around : List ν) (start : Nat),
    (placesAll around start ls).map Place.node = nodesAll ls
  | [], _, _ => rfl
  | l :: ls, around, start => by
    rw [placesAll, List.map_append, nodesAll, map_node_places l, map_node_placesAll ls]
end

end Places

section Struck

variable (valid : ν → Bool)

mutual
/-- The text with its outermost parts struck that are not valid, or with none if the flag is up. -/
def struck (flag : Bool) : Layout ν → List Char
  | .text cs => cs
  | .part node ls =>
    if Style.markdown.strikes flag (valid node) then mark ++ struckAll true ls ++ mark
    else struckAll flag ls

def struckAll (flag : Bool) : List (Layout ν) → List Char
  | [] => []
  | l :: ls => struck flag l ++ struckAll flag ls
end

/-- A part is struck if it is not valid and all that it stands inside of is. -/
def isStruck (p : Place ν) : Bool :=
  !valid p.node && p.around.all valid

variable {valid}

mutual
theorem struck_true : (l : Layout ν) → l.struck valid true = l.plain
  | .text _ => rfl
  | .part _ ls => struckAll_true ls

theorem struckAll_true : (ls : List (Layout ν)) → struckAll valid true ls = plainAll ls
  | [] => rfl
  | l :: ls => by rw [struckAll, plainAll, struck_true l, struckAll_true ls]
end

theorem struck_part (flag : Bool) (node : ν) (ls : List (Layout ν)) :
    (part node ls).struck valid flag =
      if Style.markdown.strikes flag (valid node) then mark ++ plainAll ls ++ mark
      else struckAll valid flag ls := by
  rw [struck, struckAll_true]

mutual
theorem struck_map_of_valid {f : ν → ν} (hf : ∀ node, valid (f node) = true) (flag : Bool) :
    (l : Layout ν) → (l.map f).struck valid flag = l.plain
  | .text _ => rfl
  | .part node ls => by
    have hstrikes : Style.markdown.strikes flag (valid (f node)) = false := by
      rw [hf, Style.strikes, Bool.not_true, Bool.and_false]
    rw [map, struck_part, hstrikes, if_neg Bool.false_ne_true, plain,
      struckAll_mapAll_of_valid hf flag ls]

theorem struckAll_mapAll_of_valid {f : ν → ν} (hf : ∀ node, valid (f node) = true) (flag : Bool) :
    (ls : List (Layout ν)) → struckAll valid flag (mapAll f ls) = plainAll ls
  | [] => rfl
  | l :: ls => by
    rw [mapAll, struckAll, plainAll, struck_map_of_valid hf flag l,
      struckAll_mapAll_of_valid hf flag ls]
end

mutual
/-- Without its marks, the text is the plain one. -/
theorem erased_struck (flag : Bool) : (l : Layout ν) → '~' ∉ l.plain → ∀ rest,
    erased (l.struck valid flag ++ rest) = l.plain ++ erased rest
  | .text _, h, rest => erased_append h rest
  | .part node ls, h, rest => by
    rw [struck_part]
    split
    · rw [plain] at h ⊢
      rw [List.append_assoc, List.append_assoc, erased_mark, erased_append h, erased_mark]
    · exact erased_struckAll flag ls h rest

theorem erased_struckAll (flag : Bool) : (ls : List (Layout ν)) → '~' ∉ plainAll ls → ∀ rest,
    erased (struckAll valid flag ls ++ rest) = plainAll ls ++ erased rest
  | [], _, _ => rfl
  | l :: ls, h, rest => by
    obtain ⟨hl, hls⟩ := not_or.mp (mt List.mem_append.mpr h)
    rw [struckAll, List.append_assoc, erased_struck flag l hl, erased_struckAll flag ls hls, plainAll,
      List.append_assoc]
end

theorem isStruck_of_not_valid {around : List ν} {p : Place ν} (h : around.all valid = false)
    (haround : around <+: p.around) : isStruck valid p = false := by
  obtain ⟨more, heq⟩ := haround
  rw [isStruck, ← heq, List.all_append, h, Bool.false_and, Bool.and_false]

/-- Nothing inside of a struck part is struck once more. -/
theorem filter_placesAll_of_not_valid {around : List ν} (h : around.all valid = false) (start : Nat)
    (ls : List (Layout ν)) : (placesAll around start ls).filter (isStruck valid) = [] := by
  refine List.filter_eq_nil_iff.mpr fun p hp => ?_
  obtain ⟨_, _, _, _, _, _, _, haround⟩ := exists_of_mem_placesAll ls (forall_each_trivial ls) hp
  rw [isStruck_of_not_valid h haround]
  exact Bool.false_ne_true

mutual
/-- The struck parts stand one after the other. -/
theorem pairwise_struck : (l : Layout ν) → ∀ (around : List ν) (start : Nat),
    ((l.places around start).filter (isStruck valid)).Pairwise fun p q => p.stop ≤ q.start
  | .text _, _, _ => .nil
  | .part node ls, around, start => by
    rw [places, List.filter_cons]
    split
    · rename_i hstruck
      have hnode : valid node = false := by simpa using (Bool.and_eq_true_iff.mp hstruck).1
      have hinside : (around ++ [node]).all valid = false := by simp [hnode]
      rw [filter_placesAll_of_not_valid hinside]
      exact List.pairwise_singleton _ _
    · exact pairwise_struckAll ls _ _

theorem pairwise_struckAll : (ls : List (Layout ν)) → ∀ (around : List ν) (start : Nat),
    ((placesAll around start ls).filter (isStruck valid)).Pairwise fun p q => p.stop ≤ q.start
  | [], _, _ => .nil
  | l :: ls, around, start => by
    rw [placesAll, List.filter_append]
    refine List.pairwise_append.mpr ⟨pairwise_struck l _ _, pairwise_struckAll ls _ _, ?_⟩
    intro p hp q hq
    exact Nat.le_trans (bounds_of_mem_places (List.mem_of_mem_filter hp)).2
      (le_start_of_mem_placesAll (List.mem_of_mem_filter hq))
end

/-- The stretches that are struck. -/
def spans (valid : ν → Bool) (ps : List (Place ν)) : List (Nat × Nat) :=
  (ps.filter (isStruck valid)).map fun p => (p.start, p.stop)

mutual
/-- The marks stand around the struck parts and nowhere else. -/
theorem strikeSpans_places : (l : Layout ν) → ∀ {around : List ν}, around.all valid = true →
    ∀ before after : List Char,
      strikeSpans (spans valid (l.places around before.length)) (before ++ l.plain ++ after) =
        before ++ l.struck valid false ++ after
  | .text _, _, _, _, _ => rfl
  | .part node ls, around, haround, before, after => by
    rw [places, plain, spans, struck_part]
    cases hnode : valid node with
    | true =>
      have hinside : (around ++ [node]).all valid = true := by simp [haround, hnode]
      rw [List.filter_cons_of_neg (by simp [isStruck, hnode]), if_neg (by simp [Style.strikes])]
      exact strikeSpans_placesAll ls hinside before after
    | false =>
      have hinside : (around ++ [node]).all valid = false := by simp [hnode]
      rw [List.filter_cons_of_pos (by simp [isStruck, hnode, haround]),
        filter_placesAll_of_not_valid hinside, if_pos (by simp [Style.strikes])]
      exact strikeSpan_append rfl rfl

/-- The later stretches are struck first, while all before them is still plain. -/
theorem strikeSpans_placesAll : (ls : List (Layout ν)) → ∀ {around : List ν},
    around.all valid = true → ∀ before after : List Char,
      strikeSpans (spans valid (placesAll around before.length ls)) (before ++ plainAll ls ++ after) =
        before ++ struckAll valid false ls ++ after
  | [], _, _, _, _ => rfl
  | l :: ls, around, haround, before, after => by
    have hrest := strikeSpans_placesAll ls haround (before ++ l.plain) after
    have hfirst := strikeSpans_places l haround before (struckAll valid false ls ++ after)
    simp only [List.length_append, List.append_assoc] at hrest hfirst
    simp only [spans, strikeSpans] at hrest hfirst ⊢
    rw [placesAll, plainAll, struckAll, List.filter_append, List.map_append, List.foldr_append]
    simp only [List.append_assoc]
    rw [hrest, hfirst]
end

end Struck

end Layout

end DiceNotation

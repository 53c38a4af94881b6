import DiceNotation.Proofs.Json.Depth
import DiceNotation.Proofs.Json.Values
import Mathlib.Data.List.Forall2

/-!
JSON text reads back. A value that is written is read as itself, if its arrays and objects nest no
deeper than a reader goes, its integers are in range, and its floats read back.
-/

namespace DiceNotation.Json

namespace Reader

/-- The text is read as the value, whatever ends it; blanks at its end may be left. -/
def Reads (d : Nat) (text : List Char) (v : Json) : Prop :=
  ∀ rest, Stops rest → ∃ blanks, (∀ c ∈ blanks, isBlank c = true) ∧
    value d (text ++ rest) = .ok (v, blanks ++ rest)

theorem dropWhile_of_stops {blanks rest : List Char} (h : ∀ c ∈ blanks, isBlank c = true)
    (hrest : Stops rest) : (blanks ++ rest).dropWhile isBlank = rest := by
  rw [List.dropWhile_append_of_pos h]
  exact (takeWhile_append_of_stops hrest inner_isBlank []).2

theorem stops_of_separated (texts : List (List Char)) {c : Char} (hc : c = ']' ∨ c = '\x7d')
    (rest : List Char) : Stops (texts.flatMap (',' :: ·) ++ c :: rest) := by
  cases texts with
  | nil => exact .inr hc
  | cons => exact .inl rfl

theorem itemsRest_separated {d : Nat} {texts : List (List Char)} {vs : List Json}
    (h : List.Forall₂ (Reads d) texts vs) {blanks : List Char}
    (hblanks : ∀ c ∈ blanks, isBlank c = true) (rest : List Char) {n : Nat} (hn : vs.length < n) :
    itemsRest (value d) n false (blanks ++ (texts.flatMap (',' :: ·) ++ ']' :: rest)) =
      .ok (vs, rest) := by
  induction h generalizing blanks n with
  | nil =>
    obtain ⟨m, rfl⟩ : ∃ m, n = m + 1 := ⟨n - 1, by omega⟩
    exact itemsRest_close (dropWhile_of_stops hblanks (.inr (.inl rfl))) _ m _
  | @cons text v texts vs htext htexts ih =>
    rw [List.length_cons] at hn
    obtain ⟨m, rfl⟩ : ∃ m, n = m + 1 := ⟨n - 1, by omega⟩
    obtain ⟨more, hmore, hvalue⟩ :=
      htext (texts.flatMap (',' :: ·) ++ ']' :: rest) (stops_of_separated _ (.inl rfl) rest)
    obtain ⟨c, ds, hcs, hc, hvalue⟩ := exists_cons_of_value hvalue
    have hcomma : (blanks ++ ((text :: texts).flatMap (',' :: ·) ++ ']' :: rest)).dropWhile isBlank =
        ',' :: (text ++ (texts.flatMap (',' :: ·) ++ ']' :: rest)) := by
      rw [dropWhile_of_stops hblanks (stops_of_separated _ (.inl rfl) rest), List.flatMap_cons,
        List.append_assoc, List.cons_append]
    rw [itemsRest_more hcomma hcs hc hvalue m]
    exact map_run (ih hmore (by omega)) _

theorem intercalate_cons (text : List Char) (texts : List (List Char)) :
    [','].intercalate (text :: texts) = text ++ texts.flatMap (',' :: ·) := by
  induction texts generalizing text with
  | nil => simp
  | cons other texts ih => rw [List.intercalate_cons_cons, ih, List.flatMap_cons]; simp

theorem length_le_flatMap_comma (texts : List (List Char)) :
    texts.length ≤ (texts.flatMap (',' :: ·)).length := by
  induction texts with
  | nil => exact Nat.le_refl 0
  | cons text texts ih =>
    rw [List.flatMap_cons, List.length_append, List.length_cons, List.length_cons]
    omega

theorem reads_array {d : Nat} {texts : List (List Char)} {vs : List Json}
    (h : List.Forall₂ (Reads d) texts vs) :
    Reads (d + 1) ('[' :: [','].intercalate texts ++ [']']) (.array vs) := by
  intro rest _
  refine ⟨[], nofun, ?_⟩
  suffices hitems : ∀ cs, cs = [','].intercalate texts ++ ']' :: rest →
      itemsRest (value d) (cs.length + 1) true cs = .ok (vs, rest) by
    have hbracket : ('[' :: [','].intercalate texts ++ [']'] ++ rest).dropWhile isBlank =
        '[' :: ([','].intercalate texts ++ ']' :: rest) := by
      simp [isBlank]
    rw [value, valueWith_array hbracket, bind_run get_run]
    exact bind_run (hitems _ rfl) _
  rintro cs rfl
  cases h with
  | nil => exact itemsRest_close rfl _ _ _
  | @cons text v texts vs htext htexts =>
    rw [intercalate_cons, List.append_assoc]
    obtain ⟨blanks, hblanks, hvalue⟩ :=
      htext (texts.flatMap (',' :: ·) ++ ']' :: rest) (stops_of_separated _ (.inl rfl) rest)
    obtain ⟨c, ds, hcs, hc, hvalue⟩ := exists_cons_of_value hvalue
    rw [itemsRest_first hcs hc hvalue]
    refine map_run (itemsRest_separated htexts hblanks rest ?_) _
    have hlength := length_le_flatMap_comma texts
    rw [htexts.length_eq] at hlength
    simp only [List.length_append, List.length_cons]
    omega

/-- A field is read: its key, a colon and its value. -/
def ReadsField (d : Nat) (text : List Char) (f : String × Json) : Prop :=
  ∃ u, text = (quote f.1).toList ++ ':' :: u ∧ Reads d u f.2

theorem ReadsField.exists_run {d : Nat} {text : List Char} {f : String × Json}
    (h : ReadsField d text f) {rest : List Char} (hrest : Stops rest) :
    ∃ cs es blanks, text ++ rest = '"' :: cs ∧ string ('"' :: cs) = .ok (f.1, es) ∧
      keyed (value d) f.1 es = .ok (f, blanks ++ rest) ∧ ∀ c ∈ blanks, isBlank c = true := by
  obtain ⟨u, htext, hu⟩ := h
  obtain ⟨blanks, hblanks, hvalue⟩ := hu rest hrest
  have hstring := string_quote f.1 (':' :: u ++ rest)
  rw [toList_quote, List.cons_append] at hstring
  refine ⟨_, ':' :: u ++ rest, blanks, ?_, hstring, keyed_run rfl hvalue f.1, hblanks⟩
  rw [htext, toList_quote, List.append_assoc, List.cons_append]

theorem fieldsRest_separated {d : Nat} {texts : List (List Char)} {fs : List (String × Json)}
    (h : List.Forall₂ (ReadsField d) texts fs) {before : List (String × Json)} (hbefore : before ≠ [])
    {blanks : List Char} (hblanks : ∀ c ∈ blanks, isBlank c = true) (rest : List Char) {n : Nat}
    (hn : fs.length < n) :
    fieldsRest (fun _ => keyed (value d)) n before
        (blanks ++ (texts.flatMap (',' :: ·) ++ '\x7d' :: rest)) =
      .ok (before.reverse ++ fs, '\x7d' :: rest) := by
  induction h generalizing blanks before n with
  | nil =>
    obtain ⟨m, rfl⟩ : ∃ m, n = m + 1 := ⟨n - 1, by omega⟩
    rw [List.append_nil]
    exact fieldsRest_close (dropWhile_of_stops hblanks (.inr (.inr rfl))) _ m before
  | @cons text f texts fs htext htexts ih =>
    rw [List.length_cons] at hn
    obtain ⟨m, rfl⟩ : ∃ m, n = m + 1 := ⟨n - 1, by omega⟩
    obtain ⟨cs, es, more, hcs, hkey, hfield, hmore⟩ :=
      htext.exists_run (stops_of_separated texts (.inr rfl) rest)
    have hcomma : (blanks ++ ((text :: texts).flatMap (',' :: ·) ++ '\x7d' :: rest)).dropWhile
        isBlank = ',' :: '"' :: cs := by
      rw [dropWhile_of_stops hblanks (stops_of_separated _ (.inr rfl) rest), List.flatMap_cons,
        List.append_assoc, List.cons_append, hcs]
    rw [fieldsRest_more hcomma rfl hkey hbefore hfield m,
      ih (List.cons_ne_nil _ _) hmore (by omega), List.reverse_cons, List.append_assoc]
    rfl

theorem reads_object {d : Nat} {texts : List (List Char)} {fs : List (String × Json)}
    (h : List.Forall₂ (ReadsField d) texts fs) :
    Reads (d + 1) ('\x7b' :: [','].intercalate texts ++ ['\x7d']) (.object fs) := by
  intro rest _
  refine ⟨[], nofun, ?_⟩
  suffices hfields : ∀ cs, cs = [','].intercalate texts ++ '\x7d' :: rest →
      fieldsRest (fun _ => keyed (value d)) (cs.length + 1) [] cs = .ok (fs, '\x7d' :: rest) by
    have hbrace : ('\x7b' :: [','].intercalate texts ++ ['\x7d'] ++ rest).dropWhile isBlank =
        '\x7b' :: ([','].intercalate texts ++ '\x7d' :: rest) := by
      simp [isBlank]
    rw [value, valueWith_object hbrace, bind_run get_run, bind_run (hfields _ rfl)]
    rfl
  rintro cs rfl
  cases h with
  | nil => exact fieldsRest_close rfl _ _ _
  | @cons text f texts fs htext htexts =>
    rw [intercalate_cons, List.append_assoc]
    obtain ⟨cs, es, blanks, hcs, hkey, hfield, hblanks⟩ :=
      htext.exists_run (stops_of_separated texts (.inr rfl) rest)
    have hquote : (text ++ (texts.flatMap (',' :: ·) ++ '\x7d' :: rest)).dropWhile isBlank =
        '"' :: cs := by
      rw [hcs]
      rfl
    rw [fieldsRest_first hquote hkey hfield]
    refine fieldsRest_separated htexts (List.cons_ne_nil _ _) hblanks rest ?_
    have hlength := length_le_flatMap_comma texts
    rw [htexts.length_eq] at hlength
    simp only [List.length_append, List.length_cons]
    omega

end Reader

open Reader (IntegerRange Reads ReadsField)

mutual
/-- A value whose text reads back: its integers are in range, and each of its floats is finite and
reads back alone. -/
def Legible : Json → Prop
  | .integer i => IntegerRange i
  | .float x => x.isFinite = true ∧ read (floatText x) = .ok (.float x)
  | .array items => LegibleItems items
  | .object fields => LegibleFields fields
  | _ => True

def LegibleItems : List Json → Prop
  | [] => True
  | v :: items => v.Legible ∧ LegibleItems items

def LegibleFields : List (String × Json) → Prop
  | [] => True
  | (_, v) :: fields => v.Legible ∧ LegibleFields fields
end

theorem reads_float {x : Float} (h : read (floatText x) = .ok (.float x)) (d : Nat) :
    Reads d (floatText x).toList (.float x) := by
  intro rest hrest
  obtain ⟨blanks, hvalue, hblanks⟩ := Reader.exists_of_run h
  obtain ⟨c, ds, hcs, hc, hnumber⟩ := Reader.number_of_value hvalue
  refine ⟨blanks, hblanks, ?_⟩
  obtain ⟨array, object, hvalue, -⟩ := Reader.exists_value_eq d
  have hfirst : ((floatText x).toList ++ rest).dropWhile Reader.isBlank = c :: (ds ++ rest) := by
    rw [(Reader.takeWhile_append_of_stops hrest Reader.inner_isBlank _).2, hcs, List.cons_append]
  rw [hvalue, Reader.valueWith_number hfirst hc]
  exact Reader.numeric_number.steady _ _ rest _ hrest hnumber

theorem legibleItems_iff {items : List Json} : LegibleItems items ↔ ∀ v ∈ items, v.Legible := by
  induction items with
  | nil => simp [LegibleItems]
  | cons v items ih => rw [LegibleItems, ih, List.forall_mem_cons]

theorem legibleFields_iff {fields : List (String × Json)} :
    LegibleFields fields ↔ ∀ f ∈ fields, f.2.Legible := by
  induction fields with
  | nil => simp [LegibleFields]
  | cons f fields ih =>
    obtain ⟨key, v⟩ := f
    rw [LegibleFields, ih, List.forall_mem_cons]

theorem toList_write_array (items : List Json) : (write (.array items)).toList =
    '[' :: [','].intercalate (items.map fun v => v.write.toList) ++ [']'] := by
  have hitems : writeItems items = items.map write := by
    induction items with
    | nil => rfl
    | cons v items ih => rw [writeItems, ih, List.map_cons]
  simp [write, hitems, String.toList_intercalate, Function.comp_def]

def fieldText (f : String × Json) : List Char :=
  (quote f.1).toList ++ ':' :: f.2.write.toList

theorem toList_write_object (fields : List (String × Json)) : (write (.object fields)).toList =
    '\x7b' :: [','].intercalate (fields.map fieldText) ++ ['\x7d'] := by
  have hfields : (writeFields fields).map String.toList = fields.map fieldText := by
    induction fields with
    | nil => rfl
    | cons f fields ih =>
      obtain ⟨key, v⟩ := f
      rw [writeFields, List.map_cons, ih, List.map_cons, fieldText]
      simp
  simp [write, hfields, String.toList_intercalate]

theorem reads_of_run {d : Nat} {text : List Char} {v : Json}
    (h : ∀ array object rest, Reader.Stops rest →
      Reader.valueWith array object (text ++ rest) = .ok (v, rest)) : Reads d text v := by
  intro rest hrest
  obtain ⟨array, object, hvalue, -⟩ := Reader.exists_value_eq d
  exact ⟨[], nofun, by rw [hvalue, h array object rest hrest, List.nil_append]⟩

theorem reads_string (d : Nat) (s : String) : Reads d (quote s).toList (.string s) := by
  refine reads_of_run fun array object rest _ => ?_
  have hstring := Reader.string_quote s rest
  rw [toList_quote] at hstring ⊢
  exact Reader.valueWith_string rfl hstring

theorem reads_integer (d : Nat) {i : Int} (h : IntegerRange i) :
    Reads d (toString i).toList (.integer i) := by
  refine reads_of_run fun array object rest hrest => ?_
  have hnumber := Reader.number_toString h hrest
  obtain ⟨c, ds, hcs, hc⟩ := Reader.exists_cons_of_number hnumber
  rw [hcs] at hnumber ⊢
  exact (Reader.valueWith_number (Reader.dropWhile_of_start hc ds) hc).trans hnumber

theorem reads_scalar (d : Nat) {v : Json} (hdepth : v.depth = 0) (h : v.Legible) :
    Reads d v.write.toList v := by
  cases v with
  | null => exact reads_of_run fun _ _ _ _ => rfl
  | bool b =>
    refine reads_of_run fun array object rest _ => ?_
    cases b with
    | false =>
      have htext : (write (.bool false)).toList = ['f', 'a', 'l', 's', 'e'] := by simp [write]
      rw [htext]
      rfl
    | true =>
      have htext : (write (.bool true)).toList = ['t', 'r', 'u', 'e'] := by simp [write]
      rw [htext]
      rfl
  | integer i => exact reads_integer d h
  | float x =>
    rw [write, if_pos h.1]
    exact reads_float h.2 d
  | string s => exact reads_string d s
  | array items => cases hdepth
  | object fields => cases hdepth

theorem reads_write_array {d : Nat} {items : List Json}
    (h : ∀ v ∈ items, Reads d v.write.toList v) :
    Reads (d + 1) (write (.array items)).toList (.array items) := by
  rw [toList_write_array]
  refine Reader.reads_array ?_
  rw [List.forall₂_map_left_iff]
  exact List.forall₂_same.mpr h

theorem reads_write_object {d : Nat} {fields : List (String × Json)}
    (h : ∀ f ∈ fields, Reads d f.2.write.toList f.2) :
    Reads (d + 1) (write (.object fields)).toList (.object fields) := by
  rw [toList_write_object]
  refine Reader.reads_object ?_
  rw [List.forall₂_map_left_iff]
  exact List.forall₂_same.mpr fun f hf => ⟨f.2.write.toList, by rw [fieldText], h f hf⟩

/-- The text of a value reads back, by induction on how deep a reader goes. -/
theorem reads_write (d : Nat) (v : Json) (hdepth : v.depth ≤ d) (h : v.Legible) :
    Reads d v.write.toList v := by
  induction d generalizing v with
  | zero => exact reads_scalar 0 (Nat.le_zero.mp hdepth) h
  | succ d ih =>
    cases v with
    | array items =>
      refine reads_write_array fun v hv => ih v ?_ (legibleItems_iff.mp h v hv)
      exact depthItems_le_iff.mp (Nat.le_of_succ_le_succ hdepth) v hv
    | object fields =>
      refine reads_write_object fun f hf => ih f.2 ?_ (legibleFields_iff.mp h f hf)
      exact depthFields_le_iff.mp (Nat.le_of_succ_le_succ hdepth) f hf
    | _ => exact reads_scalar _ rfl h

/-- Written values read back. -/
theorem read_write {v : Json} (hdepth : v.depth ≤ Reader.depthLimit) (h : v.Legible) :
    read v.write = .ok v := by
  obtain ⟨blanks, hblanks, hvalue⟩ := reads_write Reader.depthLimit v hdepth h [] trivial
  rw [List.append_nil, List.append_nil] at hvalue
  exact Reader.run_of_blanks hvalue hblanks

end DiceNotation.Json

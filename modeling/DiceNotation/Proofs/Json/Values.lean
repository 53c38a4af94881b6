import DiceNotation.Proofs.Json.Numbers
import Mathlib.Data.List.DropRight

/-!
How JSON values are read: a value by the character that it starts with, the items of an array and the
fields of an object one by one.
-/

namespace DiceNotation.Json.Reader

theorem finish_of_blanks {cs : List Char} (h : ∀ c ∈ cs, isBlank c = true) :
    finish cs = .ok ((), []) := by
  rw [finish, bind_run skipBlanks_run, List.dropWhile_eq_nil_iff.mpr h]
  rfl

theorem blanks_of_finish {cs ds : List Char} {u : Unit} (h : finish cs = .ok (u, ds)) :
    ∀ c ∈ cs, isBlank c = true := by
  rw [finish, bind_run skipBlanks_run, bind_run get_run] at h
  refine List.dropWhile_eq_nil_iff.mp ?_
  cases hcs : cs.dropWhile isBlank with
  | nil => rfl
  | cons c cs =>
    rw [hcs] at h
    cases h

section Texts

variable {α : Type} {r : Reader α} {s : String} {a : α}

theorem run_eq (r : Reader α) (s : String) :
    run r s = Prod.fst <$> (r >>= fun a => finish >>= fun _ => pure a) s.toList :=
  rfl

theorem run_of_blanks {cs : List Char} (h : r s.toList = .ok (a, cs))
    (hcs : ∀ c ∈ cs, isBlank c = true) : run r s = .ok a := by
  rw [run_eq, bind_run h, bind_run (finish_of_blanks hcs)]
  rfl

theorem exists_of_run (h : run r s = .ok a) :
    ∃ cs, r s.toList = .ok (a, cs) ∧ ∀ c ∈ cs, isBlank c = true := by
  rw [run_eq] at h
  cases hrun : (r >>= fun a => finish >>= fun _ => pure a) s.toList with
  | error e =>
    rw [hrun] at h
    cases h
  | ok result =>
    obtain ⟨b, ds⟩ := result
    obtain ⟨a', cs, hr, hfinish⟩ := exists_of_bind_ok hrun
    obtain ⟨u, es, hfinish, hpure⟩ := exists_of_bind_ok hfinish
    rw [hrun] at h
    cases hpure
    cases h
    exact ⟨cs, hr, blanks_of_finish hfinish⟩

end Texts

section Values

variable {array object : Reader Json} {cs ds : List Char} {c : Char} {v : Json}

theorem valueWith_string {s : String} {rest : List Char} (h : cs.dropWhile isBlank = '"' :: ds)
    (hs : string ('"' :: ds) = .ok (s, rest)) :
    valueWith array object cs = .ok (.string s, rest) := by
  rw [valueWith, bind_run skipBlanks_run, h, bind_run (peek_run '"')]
  exact bind_run hs _

theorem valueWith_number (h : cs.dropWhile isBlank = c :: ds)
    (hc : (c == '-' || c.isDigit) = true) : valueWith array object cs = number (c :: ds) := by
  rw [valueWith, bind_run skipBlanks_run, h, bind_run (peek_run c)]
  have hquote : (c == '"') = false := by
    refine beq_false_of_ne ?_
    rintro rfl
    cases hc
  simp only [hquote, hc, Bool.false_eq_true, if_false, if_true]

theorem valueWith_array (h : cs.dropWhile isBlank = '[' :: ds) :
    valueWith array object cs = array ds := by
  rw [valueWith, bind_run skipBlanks_run, h, bind_run (peek_run '[')]
  rfl

theorem valueWith_object (h : cs.dropWhile isBlank = '\x7b' :: ds) :
    valueWith array object cs = object ds := by
  rw [valueWith, bind_run skipBlanks_run, h, bind_run (peek_run '\x7b')]
  rfl

theorem valueWith_dropWhile (array object : Reader Json) (cs : List Char) :
    valueWith array object (cs.dropWhile isBlank) = valueWith array object cs := by
  rw [valueWith, bind_run skipBlanks_run, bind_run skipBlanks_run, List.dropWhile_idempotent _ _]

theorem eq_of_literal {word : List Char} {u w : Json} {rest : List Char}
    (h : literal word u cs = .ok (w, rest)) : w = u := by
  obtain ⟨_, _, -, hpure⟩ := exists_of_bind_ok h
  cases hpure
  rfl

/-- What a reader of values has done, by the first character after the blanks. -/
inductive Started (array object : Reader Json) : List Char → Json → List Char → Prop
  | string {ds rest : List Char} {s : String} (h : string ('"' :: ds) = .ok (s, rest)) :
      Started array object ('"' :: ds) (.string s) rest
  | number {ds rest : List Char} {c : Char} {v : Json} (hc : (c == '-' || c.isDigit) = true)
      (h : number (c :: ds) = .ok (v, rest)) : Started array object (c :: ds) v rest
  | null {ds rest : List Char} (h : literal ['u', 'l', 'l'] .null ds = .ok (.null, rest)) :
      Started array object ('n' :: ds) .null rest
  | bool {ds rest : List Char} {c : Char} {b : Bool} (hc : c = 't' ∨ c = 'f') :
      Started array object (c :: ds) (.bool b) rest
  | array {ds rest : List Char} {v : Json} (h : array ds = .ok (v, rest)) :
      Started array object ('[' :: ds) v rest
  | object {ds rest : List Char} {v : Json} (h : object ds = .ok (v, rest)) :
      Started array object ('\x7b' :: ds) v rest

theorem started_of_valueWith {rest : List Char} (h : valueWith array object cs = .ok (v, rest)) :
    Started array object (cs.dropWhile isBlank) v rest := by
  rw [valueWith, bind_run skipBlanks_run] at h
  cases hcs : cs.dropWhile isBlank with
  | nil =>
    rw [hcs] at h
    cases h
  | cons c ds =>
    rw [hcs, bind_run (peek_run c)] at h
    split at h
    case isTrue hc =>
      obtain ⟨s, es, hs, hpure⟩ := exists_of_bind_ok h
      cases hpure
      obtain rfl := beq_iff_eq.mp hc
      exact .string hs
    case isFalse =>
      split at h
      case isTrue hc => exact .number hc h
      case isFalse =>
        rw [bind_run (next_run c)] at h
        split at h
        case h_1 =>
          obtain rfl := eq_of_literal h
          exact .null h
        case h_2 =>
          obtain rfl := eq_of_literal h
          exact .bool (.inl rfl)
        case h_3 =>
          obtain rfl := eq_of_literal h
          exact .bool (.inr rfl)
        case h_4 => exact .array h
        case h_5 => exact .object h
        case h_6 => cases h

end Values

/-- The reader of arrays and that of objects, behind the opening bracket. -/
theorem exists_value_eq (d : Nat) : ∃ array object, value d = valueWith array object ∧
    (∀ cs v rest, array cs = .ok (v, rest) → ∃ items, v = .array items) ∧
      ∀ cs v rest, object cs = .ok (v, rest) → ∃ fields, v = .object fields := by
  cases d with
  | zero => exact ⟨_, _, rfl, nofun, nofun⟩
  | succ d =>
    refine ⟨_, _, rfl, fun cs v rest h => ?_, fun cs v rest h => ?_⟩
    · obtain ⟨_, _, -, h⟩ := exists_of_bind_ok h
      obtain ⟨items, _, -, hpure⟩ := exists_of_bind_ok h
      cases hpure
      exact ⟨items, rfl⟩
    · obtain ⟨_, _, -, h⟩ := exists_of_bind_ok h
      obtain ⟨fields, _, -, h⟩ := exists_of_bind_ok h
      obtain ⟨_, _, -, hpure⟩ := exists_of_bind_ok h
      cases hpure
      exact ⟨fields, rfl⟩

theorem value_dropWhile (d : Nat) (cs : List Char) : value d (cs.dropWhile isBlank) = value d cs := by
  obtain ⟨array, object, hvalue, -⟩ := exists_value_eq d
  rw [hvalue, valueWith_dropWhile]

theorem exists_cons_of_value {d : Nat} {cs rest : List Char} {v : Json}
    (h : value d cs = .ok (v, rest)) :
    ∃ c ds, cs.dropWhile isBlank = c :: ds ∧ c ≠ ']' ∧ value d (c :: ds) = .ok (v, rest) := by
  obtain ⟨array, object, hvalue, -⟩ := exists_value_eq d
  have hstarted := started_of_valueWith (hvalue ▸ h)
  rw [← value_dropWhile] at h
  generalize cs.dropWhile isBlank = es at h hstarted
  cases hstarted with
  | @number ds _ c _ hc _ =>
    refine ⟨c, ds, rfl, ?_, h⟩
    rintro rfl
    cases hc
  | @bool ds _ c _ hc => exact ⟨c, ds, rfl, by rcases hc with rfl | rfl <;> decide, h⟩
  | string | null | array | object => exact ⟨_, _, rfl, by decide, h⟩

theorem number_of_value {d : Nat} {cs rest : List Char} {x : Float}
    (h : value d cs = .ok (.float x, rest)) :
    ∃ c ds, cs.dropWhile isBlank = c :: ds ∧ (c == '-' || c.isDigit) = true ∧
      number (c :: ds) = .ok (.float x, rest) := by
  obtain ⟨array, object, hvalue, harray, hobject⟩ := exists_value_eq d
  generalize hes : cs.dropWhile isBlank = es
  have hstarted := started_of_valueWith (hvalue ▸ h)
  rw [hes] at hstarted
  cases hstarted with
  | number hc hnumber => exact ⟨_, _, rfl, hc, hnumber⟩
  | array harrayRun =>
    obtain ⟨_, hv⟩ := harray _ _ _ harrayRun
    cases hv
  | object hobjectRun =>
    obtain ⟨_, hv⟩ := hobject _ _ _ hobjectRun
    cases hv

section Items

variable {item : Reader Json} {cs ds rest : List Char} {v : Json}

theorem itemsRest_close (h : cs.dropWhile isBlank = ']' :: rest) (item : Reader Json) (n : Nat)
    (first : Bool) : itemsRest item (n + 1) first cs = .ok ([], rest) := by
  rw [itemsRest, bind_run skipBlanks_run, h, bind_run (peek_run ']')]
  rfl

theorem itemsRest_first {c : Char} (h : cs.dropWhile isBlank = c :: ds) (hc : c ≠ ']')
    (hitem : item (c :: ds) = .ok (v, rest)) (n : Nat) :
    itemsRest item (n + 1) true cs = ((v :: ·) <$> itemsRest item n false) rest := by
  rw [itemsRest, bind_run skipBlanks_run, h, bind_run (peek_run c)]
  simp only [beq_false_of_ne hc, Bool.false_eq_true, if_false, Bool.not_true]
  exact bind_run hitem _

theorem itemsRest_more {c : Char} {es : List Char} (h : cs.dropWhile isBlank = ',' :: ds)
    (hds : ds.dropWhile isBlank = c :: es) (hc : c ≠ ']') (hitem : item (c :: es) = .ok (v, rest))
    (n : Nat) : itemsRest item (n + 1) false cs = ((v :: ·) <$> itemsRest item n false) rest := by
  rw [itemsRest, bind_run skipBlanks_run, h, bind_run (peek_run ',')]
  have hcomma : (',' == ']') = false := rfl
  simp only [hcomma, Bool.false_eq_true, if_false, Bool.not_false, if_true, ne_eq, not_true_eq_false]
  rw [bind_run (next_run ','), bind_run skipBlanks_run, hds, bind_run (peek_run c)]
  simp only [beq_false_of_ne hc, Bool.false_eq_true, if_false]
  exact bind_run hitem _

end Items

section Fields

variable {α : Type} {field : List α → String → Reader α} {cs ds rest : List Char} {key : String}
  {a : α} {before : List α}

theorem fieldsRest_close (h : cs.dropWhile isBlank = '\x7d' :: rest)
    (field : List α → String → Reader α) (n : Nat) (before : List α) :
    fieldsRest field (n + 1) before cs = .ok (before.reverse, '\x7d' :: rest) := by
  rw [fieldsRest, bind_run skipBlanks_run, h, bind_run (peek_run '\x7d')]
  rfl

theorem fieldsRest_first {es : List Char} (h : cs.dropWhile isBlank = '"' :: ds)
    (hkey : string ('"' :: ds) = .ok (key, es)) (hfield : field [] key es = .ok (a, rest)) (n : Nat) :
    fieldsRest field (n + 1) [] cs = fieldsRest field n [a] rest := by
  rw [fieldsRest, bind_run skipBlanks_run, h, bind_run (peek_run '"')]
  have hquote : ('"' == '\x7d') = false := rfl
  simp only [hquote, Bool.false_eq_true, if_false, List.isEmpty_nil, Bool.not_true]
  rw [bind_run (peek_run '"')]
  simp only [ne_eq, not_true_eq_false, if_false]
  rw [bind_run hkey, bind_run hfield]

theorem fieldsRest_more {es fs : List Char} (h : cs.dropWhile isBlank = ',' :: ds)
    (hds : ds.dropWhile isBlank = '"' :: es) (hkey : string ('"' :: es) = .ok (key, fs))
    (hbefore : before ≠ []) (hfield : field before key fs = .ok (a, rest)) (n : Nat) :
    fieldsRest field (n + 1) before cs = fieldsRest field n (a :: before) rest := by
  rw [fieldsRest, bind_run skipBlanks_run, h, bind_run (peek_run ',')]
  have hcomma : (',' == '\x7d') = false := rfl
  have hnonempty : before.isEmpty = false := List.isEmpty_eq_false_iff.mpr hbefore
  simp only [hcomma, Bool.false_eq_true, if_false, hnonempty, Bool.not_false, if_true, ne_eq,
    not_true_eq_false]
  rw [bind_run (next_run ','), bind_run skipBlanks_run, hds, bind_run (peek_run '"')]
  simp only [not_true_eq_false, if_false]
  rw [bind_run hkey, bind_run hfield]

theorem keyed_run {item : Reader Json} {v : Json} (hcolon : cs.dropWhile isBlank = ':' :: ds)
    (hitem : item ds = .ok (v, rest)) (key : String) : keyed item key cs = .ok ((key, v), rest) := by
  have hskip : colon cs = .ok ((), ds) := by
    rw [colon, bind_run skipBlanks_run, hcolon]
    exact expect_run ':'
  rw [keyed, bind_run hskip]
  exact bind_run hitem _

end Fields

end DiceNotation.Json.Reader

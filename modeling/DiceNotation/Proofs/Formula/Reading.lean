import DiceNotation.Formula.Decode
import DiceNotation.Proofs.Json.Values

/-!
Formulas read field by field. The reader of formulas looks at a label as soon as it meets one; where
the text is JSON that stands for a formula, it finds the same fields as the reader of JSON.
-/

namespace DiceNotation

namespace Json.Reader

section Fields

variable {α : Type}

/-- The key of a field, which has to be a string. -/
def quotedKey : Reader String := do
  if (← peek) ≠ '"' then throw .malformed
  string

/-- What comes before a field: its key, or none where the object ends. -/
def opening (before : List α) : Reader (Option String) := do
  skipBlanks
  let c ← peek
  if c == '\x7d' then return none
  if !before.isEmpty then
    if c ≠ ',' then throw .malformed
    let _ ← next
    skipBlanks
  some <$> quotedKey

theorem fieldsRest_succ (field : List α → String → Reader α) (n : Nat) (before : List α) :
    fieldsRest field (n + 1) before = opening before >>= fun key =>
      match key with
      | none => pure before.reverse
      | some key => field before key >>= fun a => fieldsRest field n (a :: before) := by
  have hkey (k : String → Reader (List α)) : (peek >>= fun c =>
      if c ≠ '"' then throw Flaw.malformed >>= fun _ : Unit => string >>= k else string >>= k) =
        quotedKey >>= k := by
    rw [quotedKey, bind_assoc]
    refine bind_congr fun c => ?_
    split <;> rfl
  rw [fieldsRest, opening, bind_assoc]
  refine bind_congr fun _ => ?_
  rw [bind_assoc]
  refine bind_congr fun c => ?_
  by_cases hclose : (c == '\x7d') = true
  · rw [if_pos hclose, if_pos hclose]
    rfl
  rw [if_neg hclose, if_neg hclose]
  by_cases hbefore : (!before.isEmpty) = true
  · rw [if_pos hbefore, if_pos hbefore]
    by_cases hcomma : c ≠ ','
    · rw [if_pos hcomma, if_pos hcomma]
      rfl
    · rw [if_neg hcomma, if_neg hcomma]
      simp only [bind_assoc, bind_map_left]
      exact bind_congr fun _ => bind_congr fun _ => hkey _
  · rw [if_neg hbefore, if_neg hbefore, bind_map_left]
    exact hkey _

theorem fieldsRest_cases {field : List α → String → Reader α} {n : Nat} {before fields : List α}
    {cs rest : List Char} (h : fieldsRest field n before cs = .ok (fields, rest)) :
    ∃ m ds, n = m + 1 ∧
      ((opening before cs = .ok (none, ds) ∧ fields = before.reverse ∧ rest = ds) ∨
        ∃ key a es, opening before cs = .ok (some key, ds) ∧ field before key ds = .ok (a, es) ∧
          fieldsRest field m (a :: before) es = .ok (fields, rest)) := by
  cases n with
  | zero => cases h
  | succ m =>
    rw [fieldsRest_succ] at h
    obtain ⟨key, ds, hopening, h⟩ := exists_of_bind_ok h
    refine ⟨m, ds, rfl, ?_⟩
    cases key with
    | none =>
      cases h
      exact .inl ⟨hopening, rfl, rfl⟩
    | some key =>
      obtain ⟨a, es, hfield, h⟩ := exists_of_bind_ok h
      exact .inr ⟨key, a, es, hopening, hfield, h⟩

theorem reverse_prefix_of_fieldsRest {field : List α → String → Reader α} {n : Nat}
    {before fields : List α} {cs rest : List Char}
    (h : fieldsRest field n before cs = .ok (fields, rest)) : before.reverse <+: fields := by
  induction n generalizing before cs with
  | zero => cases h
  | succ n ih =>
    obtain ⟨m, ds, hm, hround⟩ := fieldsRest_cases h
    obtain rfl := Nat.succ.inj hm
    rcases hround with ⟨-, rfl, -⟩ | ⟨key, a, es, -, -, h⟩
    · exact List.prefix_refl _
    · refine List.IsPrefix.trans ?_ (ih h)
      rw [List.reverse_cons]
      exact List.prefix_append _ _

theorem fieldsRest_congr {field other : List α → String → Reader α} {n : Nat}
    {before fields : List α} {cs rest : List Char}
    (h : fieldsRest field n before cs = .ok (fields, rest))
    (hother : ∀ before key ds a es, (a :: before).reverse <+: fields →
      field before key ds = .ok (a, es) → other before key ds = .ok (a, es)) :
    fieldsRest other n before cs = .ok (fields, rest) := by
  induction n generalizing before cs with
  | zero => cases h
  | succ n ih =>
    obtain ⟨m, ds, hm, hround⟩ := fieldsRest_cases h
    obtain rfl := Nat.succ.inj hm
    rw [fieldsRest_succ]
    rcases hround with ⟨hopening, rfl, rfl⟩ | ⟨key, a, es, hopening, hfield, h⟩
    · rw [bind_run hopening]
      rfl
    · have hprefix := reverse_prefix_of_fieldsRest h
      rw [bind_run hopening]
      exact (bind_run (hother before key ds a es hprefix hfield) _).trans (ih h)

end Fields

/-- A string or null is read the same to any depth. -/
theorem value_of_scalar {d : Nat} {cs rest : List Char} {v : Json}
    (h : value d cs = .ok (v, rest)) (hv : v = .null ∨ ∃ s, v = .string s) :
    ∃ c ds, cs.dropWhile isBlank = c :: ds ∧ (c = 'n' ∨ c = '"') ∧
      value 0 (c :: ds) = .ok (v, rest) := by
  obtain ⟨array, object, hvalue, harray, hobject⟩ := exists_value_eq d
  have hstarted := started_of_valueWith (hvalue ▸ h)
  generalize cs.dropWhile isBlank = es at hstarted ⊢
  cases hstarted with
  | string hstring => exact ⟨_, _, rfl, .inr rfl, valueWith_string rfl hstring⟩
  | null hliteral => exact ⟨_, _, rfl, .inl rfl, hliteral⟩
  | number hc hnumber =>
    have hsome := numeric_number.isSome _ _ _ hnumber
    rcases hv with rfl | ⟨s, rfl⟩ <;> cases hsome
  | bool => rcases hv with hv | ⟨s, hv⟩ <;> cases hv
  | array h =>
    obtain ⟨items, rfl⟩ := harray _ _ _ h
    rcases hv with hv | ⟨s, hv⟩ <;> cases hv
  | object h =>
    obtain ⟨fields, rfl⟩ := hobject _ _ _ h
    rcases hv with hv | ⟨s, hv⟩ <;> cases hv

theorem fields_of_value {d : Nat} {cs rest : List Char} {fields : List (String × Json)}
    (h : value (d + 1) cs = .ok (.object fields, rest)) :
    ∃ ds es c, cs.dropWhile isBlank = '\x7b' :: ds ∧
      fieldsRest (fun _ => keyed (value d)) (ds.length + 1) [] ds = .ok (fields, es) ∧
        next es = .ok (c, rest) := by
  have hstarted := started_of_valueWith h
  generalize cs.dropWhile isBlank = ds at hstarted ⊢
  cases hstarted with
  | number hc hnumber =>
    have hsome := numeric_number.isSome _ _ _ hnumber
    cases hsome
  | array h =>
    obtain ⟨_, _, -, h⟩ := exists_of_bind_ok h
    obtain ⟨_, _, -, hpure⟩ := exists_of_bind_ok h
    cases hpure
  | @object ds _ _ h =>
    obtain ⟨_, _, hget, h⟩ := exists_of_bind_ok h
    obtain ⟨_, es, hfields, h⟩ := exists_of_bind_ok h
    obtain ⟨c, _, hnext, hpure⟩ := exists_of_bind_ok h
    cases hget
    cases hpure
    exact ⟨ds, es, c, rfl, hfields, hnext⟩

theorem exists_of_keyed {item : Reader Json} {key : String} {f : String × Json}
    {cs rest : List Char} (h : keyed item key cs = .ok (f, rest)) :
    f.1 = key ∧ ∃ ds, colon cs = .ok ((), ds) ∧ item ds = .ok (f.2, rest) := by
  obtain ⟨_, ds, hcolon, h⟩ := exists_of_bind_ok h
  obtain ⟨v, _, hitem, hpure⟩ := exists_of_bind_ok h
  cases hpure
  exact ⟨rfl, ds, hcolon, hitem⟩

end Json.Reader

namespace Formula.Decode

open Json (Reader)

/-- The fields of a formula have one label at most, a string or null. -/
theorem label_of_formulaOf {inner : Json → Option Formula} {fields : List (String × Json)}
    {f : Formula} (h : formulaOf inner fields = some f) : ∃ o, Json.field? "label" fields = some o ∧
      ∀ v, o = some v → v = .null ∨ ∃ s, v = .string s := by
  unfold formulaOf at h
  cases hlabel : Json.field? "label" fields with
  | none => simp [Json.Record.nullable, Json.Record.get?, hlabel] at h
  | some o =>
    refine ⟨o, rfl, ?_⟩
    rintro v rfl
    cases v with
    | null => exact .inl rfl
    | string s => exact .inr ⟨s, rfl⟩
    | _ => simp [Json.Record.nullable, Json.Record.get?, hlabel, Json.string?] at h

theorem eq_of_label_met {before more : List (String × Json)} {a : String × Json}
    (ha : a.1 = "label") {o : Option Json}
    (h : Json.field? "label" (before.reverse ++ a :: more) = some o) :
    (before.any fun f => f.1 == "label") = false ∧ o = some a.2 := by
  have hfilter : (before.reverse ++ a :: more).filter (fun f => f.1 == "label") =
      (before.reverse.filter fun f => f.1 == "label") ++
        a :: more.filter fun f => f.1 == "label" := by
    rw [List.filter_append, List.filter_cons_of_pos (by rw [ha]; rfl)]
  unfold Json.field? at h
  rw [hfilter] at h
  cases hbefore : before.reverse.filter fun f => f.1 == "label" with
  | cons b bs =>
    rw [hbefore] at h
    cases bs <;> cases h
  | nil =>
    rw [hbefore] at h
    refine ⟨?_, ?_⟩
    · refine List.any_eq_false.mpr fun f hf => ?_
      exact List.filter_eq_nil_iff.mp hbefore f (List.mem_reverse.mpr hf)
    · cases hmore : more.filter fun f => f.1 == "label" with
      | nil =>
        rw [hmore] at h
        exact (Option.some.inj h).symm
      | cons =>
        rw [hmore] at h
        cases h

theorem field_of_keyed {before : List (String × Json)} {key : String} {a : String × Json}
    {cs rest : List Char}
    (h : Reader.keyed (Reader.value (Reader.depthLimit - 1)) key cs = .ok (a, rest))
    (hlabel : key = "label" → (before.any fun f => f.1 == "label") = false ∧
      (a.2 = .null ∨ ∃ s, a.2 = .string s)) : field before key cs = .ok (a, rest) := by
  by_cases hkey : key = "label"
  · obtain ⟨hfirst, hv⟩ := hlabel hkey
    obtain ⟨ha, ds, hcolon, hvalue⟩ := Reader.exists_of_keyed h
    obtain ⟨c, es, hes, hc, hvalue⟩ := Reader.value_of_scalar hvalue hv
    obtain ⟨k, v⟩ := a
    subst hkey ha
    have hcheck : ¬ (c ≠ 'n' ∧ c ≠ '"') := fun hne => hc.elim hne.1 hne.2
    rw [field, if_pos rfl, hfirst, if_neg Bool.false_ne_true]
    beta_reduce
    rw [Reader.bind_run hcolon, Reader.bind_run Reader.skipBlanks_run, hes,
      Reader.bind_run (Reader.peek_run c), if_neg hcheck]
    exact Reader.bind_run hvalue _
  · rw [field, if_neg hkey]
    exact h

end Formula.Decode

/-- A text that is JSON and stands for a formula is read as that formula. -/
theorem Formula.readJson_of_read {text : String} {v : Json} {f : Formula}
    (hread : Json.read text = .ok v) (hv : Formula.ofJson? Json.Reader.depthLimit v = some f) :
    Formula.readJson text = .ok f := by
  obtain ⟨rest, hvalue, hrest⟩ := Json.Reader.exists_of_run hread
  cases v with
  | object fields =>
    obtain ⟨ds, es, c, hds, hfields, hnext⟩ := Json.Reader.fields_of_value hvalue
    have hstream : Json.Reader.fieldsRest Decode.field (ds.length + 1) [] ds = .ok (fields, es) := by
      refine Json.Reader.fieldsRest_congr hfields fun before key gs a hs hprefix hkeyed => ?_
      refine Decode.field_of_keyed hkeyed fun hkey => ?_
      obtain ⟨more, rfl⟩ := hprefix
      obtain ⟨o, ho, hscalar⟩ := Decode.label_of_formulaOf hv
      rw [List.reverse_cons, List.append_assoc] at ho
      obtain ⟨hfirst, rfl⟩ :=
        Decode.eq_of_label_met ((Json.Reader.exists_of_keyed hkeyed).1.trans hkey) ho
      exact ⟨hfirst, hscalar _ rfl⟩
    refine Json.Reader.run_of_blanks ?_ hrest
    rw [Decode.reader, Json.Reader.bind_run Json.Reader.skipBlanks_run, hds,
      Json.Reader.bind_run (Json.Reader.peek_run _), if_neg (fun hne => hne rfl)]
    beta_reduce
    rw [Json.Reader.bind_run (Json.Reader.next_run _), Json.Reader.bind_run Json.Reader.get_run,
      Json.Reader.bind_run hstream, hv]
    exact Json.Reader.bind_run hnext _
  | _ => cases hv

end DiceNotation

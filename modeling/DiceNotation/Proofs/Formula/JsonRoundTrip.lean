import DiceNotation.Proofs.Formula.Reading
import DiceNotation.Proofs.Formula.Restored
import DiceNotation.Proofs.Json.Written

/-!
Formulas and their JSON text. A text is read as a formula if its value is the JSON of the formula with
fields moved and unknown fields added. What is added counts: it has to be JSON that can be read, and
to nest no deeper than the rest may.
-/

namespace DiceNotation

open Json (Rearranged)

namespace Formula

/-- Text whose value is the JSON of a formula, rearranged, is read as the formula, however it is
written; and written without blanks such a value makes such a text. -/
theorem readJson_of_rearranged (f : Formula) (hf : f.toJson.depth ≤ Json.Reader.depthLimit) {v : Json}
    (h : Rearranged .formula f.toJson v) :
    (∀ text, Json.read text = .ok v → readJson text = .ok f) ∧
      (v.depth ≤ Json.Reader.depthLimit → v.Legible → readJson v.write = .ok f) := by
  have hv : ofJson? Json.Reader.depthLimit v = some f := restores_ofJson? _ f v hf h
  exact ⟨fun _ hread => readJson_of_read hread hv, fun hdepth hlegible =>
    readJson_of_read (Json.read_write hdepth hlegible) hv⟩

/-- A number with its fields turned around and an unknown one in front. -/
theorem readJson_of_rearranged_number :
    let f : Formula := ⟨.number (.int 7), some "a"⟩
    let v := Json.object
      [("x", .array []), ("label", .string "a"), ("value", .integer 7), ("type", .string "number")]
    f.toJson.depth ≤ Json.Reader.depthLimit ∧ Rearranged .formula f.toJson v ∧
      v.depth ≤ Json.Reader.depthLimit ∧ v.Legible ∧ Json.read v.write = .ok v ∧
      readJson v.write = .ok f ∧
      v.write = "\x7b\"x\":[],\"label\":\"a\",\"value\":7,\"type\":\"number\"\x7d" := by
  intro f v
  have hf : f.toJson.depth ≤ Json.Reader.depthLimit := by decide
  have hv : v.depth ≤ Json.Reader.depthLimit := by decide
  have hlegible : v.Legible := by
    simp [v, Json.Legible, Json.LegibleFields, Json.LegibleItems, Json.Reader.IntegerRange,
      Json.Reader.significandLimit]
  have hread := Json.read_write hv hlegible
  have hfields : Json.RearrangedFields .formula
      [("type", .string "number"), ("value", .integer 7), ("label", .string "a")]
      [("type", .string "number"), ("value", .integer 7), ("label", .string "a")] :=
    .cons _ (.same _ _) (.cons _ (.same _ _) (.cons _ (.same _ _) (.nil _)))
  have hextra : ∀ e ∈ [("x", Json.array [])], Role.formula.Admits
      [("type", .string "number"), ("value", .integer 7), ("label", .string "a")] e.1 :=
    List.forall_mem_singleton.mpr ⟨fun h => (by cases h), fun h => (by cases h), by decide⟩
  have h : Rearranged .formula f.toJson v := .object hfields hextra <| List.reverse_perm
    [("type", Json.string "number"), ("value", .integer 7), ("label", .string "a"), ("x", .array [])]
  exact ⟨hf, h, hv, hlegible, hread, (readJson_of_rearranged f hf h).1 v.write hread,
    by decide +kernel⟩

def nested : Nat → Json
  | 0 => .array []
  | n + 1 => .array [nested n]

theorem legible_nested (n : Nat) : (nested n).Legible := by
  induction n with
  | zero => exact trivial
  | succ n ih => exact ⟨ih, trivial⟩

theorem toList_write_nested (n : Nat) : (nested n).write.toList =
    List.replicate (n + 1) '[' ++ List.replicate (n + 1) ']' := by
  induction n with
  | zero => rfl
  | succ n ih =>
    rw [nested, Json.toList_write_array, List.map_singleton, List.intercalate_singleton, ih,
      List.replicate_succ (n := n + 1) (a := '['), List.replicate_succ' (n := n + 1) (a := ']')]
    simp only [List.cons_append, List.append_assoc]

/-- A value that nests too deep is not passed over under an unknown key either: the formula, and
the text around the value, nest no deeper than they may. -/
theorem readJson_of_unknown_nested :
    let f := bare (.number (.int 1))
    let v := Json.object
      [("type", .string "number"), ("value", .integer 1), ("x", nested 126)]
    f.toJson.depth ≤ Json.Reader.depthLimit ∧ Rearranged .formula f.toJson v ∧ v.Legible ∧
      readJson v.write ≠ .ok f := by
  intro f v
  have hfields : Json.RearrangedFields .formula
      [("type", .string "number"), ("value", .integer 1)]
      [("type", .string "number"), ("value", .integer 1)] :=
    .cons _ (.same _ _) (.cons _ (.same _ _) (.nil _))
  have hextra : ∀ e ∈ [("x", nested 126)], Role.formula.Admits
      [("type", .string "number"), ("value", .integer 1)] e.1 :=
    List.forall_mem_singleton.mpr ⟨fun h => (by cases h), fun h => (by cases h), by decide⟩
  refine ⟨by decide, .object hfields hextra (List.Perm.refl _), ?_, fun hread => ?_⟩
  · simp [v, Json.Legible, Json.LegibleFields, Json.Reader.IntegerRange,
      Json.Reader.significandLimit, legible_nested]
  · have htext : v.write.toList = "\x7b\"type\":\"number\",\"value\":1,\"x\":".toList ++
        (List.replicate (126 + 1) '[' ++ List.replicate (126 + 1) ']') ++ ['\x7d'] := by
      have htype : Json.fieldText ("type", .string "number") = "\"type\":\"number\"".toList := by
        decide +kernel
      have hvalue : Json.fieldText ("value", .integer 1) = "\"value\":1".toList := by decide +kernel
      have hkey : (Json.quote "x").toList = "\"x\"".toList := by decide +kernel
      rw [Json.toList_write_object, List.map_cons, List.map_cons, List.map_singleton, htype, hvalue,
        Json.fieldText, hkey, toList_write_nested 126]
      generalize List.replicate (126 + 1) '[' ++ List.replicate (126 + 1) ']' = brackets
      simp
    have hrefused : (Decode.reader v.write.toList).toBool = false := by
      rw [htext]
      decide +kernel
    obtain ⟨cs, hreader, -⟩ := Json.Reader.exists_of_run hread
    rw [hreader] at hrefused
    cases hrefused

end Formula

end DiceNotation

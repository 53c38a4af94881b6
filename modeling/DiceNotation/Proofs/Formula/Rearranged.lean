import DiceNotation.Proofs.Json.Fields

/-!
JSON of formulas, rearranged. The fields of each object may stand in another order, and fields that
an object does not know may be added to it; what an object knows depends on its role in the formula
and on its type.
-/

namespace DiceNotation

/-- What a value in the JSON of a formula stands for; an array has the role of its items. -/
inductive Role where
  | formula
  | faces
  | modifier
  | target
  | matching
  | operation
  | other

namespace Role

def under : Role → String → Role
  | .formula, "count" | .formula, "head" | .formula, "rolls" | .formula, "expr" => .formula
  | .formula, "die" => .faces
  | .formula, "mods" | .formula, "targets" => .modifier
  | .formula, "match" => .matching
  | .formula, "ops" => .operation
  | .faces, "sides" => .formula
  | .modifier, "expr" | .target, "expr" | .matching, "min" | .operation, "tail" => .formula
  | .modifier, "target" | .matching, "target" => .target
  | _, _ => .other

/-- The keys of a type of formula, next to those that all formulas have. -/
def formulaKeys : String → List String
  | "number" => ["value"]
  | "die" => ["count", "die", "mods", "targets", "match", "sort"]
  | "diceexpr" | "expression" => ["head", "ops"]
  | "group" => ["rolls", "mods"]
  | "mathfunction" => ["op", "expr"]
  | "replacement" => ["name", "expr"]
  | "inline" => ["expr"]
  | _ => []

/-- The keys of a type of modifier, next to the type. -/
def modifierKeys : String → List String
  | "keep" | "drop" => ["highlow", "expr"]
  | "success" | "failure" | "crit" | "critfail" => ["mod", "expr"]
  | "explode" => ["mode", "target"]
  | "reroll" => ["once", "target"]
  | _ => []

def typeName (fields : List (String × Json)) : String :=
  match fields.lookup "type" with
  | some (.string s) => s
  | _ => ""

/-- The keys that an object knows. -/
def keys (role : Role) (fields : List (String × Json)) : List String :=
  match role with
  | .formula => "type" :: "label" :: formulaKeys (typeName fields)
  | .modifier => "type" :: modifierKeys (typeName fields)
  | .target => ["mod", "expr"]
  | .matching => ["min", "count", "target"]
  | .operation => ["op", "tail"]
  | .faces | .other => []

/-- A key that can be added to an object. The object for the sides of a die takes no other key. -/
def Admits (role : Role) (fields : List (String × Json)) (key : String) : Prop :=
  role ≠ .faces ∧ role ≠ .other ∧ key ∉ role.keys fields

end Role

namespace Json

mutual
/-- The fields of objects in another order, with fields added that the objects do not know. -/
inductive Rearranged : Role → Json → Json → Prop
  | same (role : Role) (v : Json) : Rearranged role v v
  | array {role : Role} {items items' : List Json} (h : RearrangedItems role items items') :
      Rearranged role (.array items) (.array items')
  | object {role : Role} {fields fields' extra all : List (String × Json)}
      (hfields : RearrangedFields role fields fields')
      (hextra : ∀ e ∈ extra, role.Admits fields e.1) (hall : all.Perm (fields' ++ extra)) :
      Rearranged role (.object fields) (.object all)

inductive RearrangedItems : Role → List Json → List Json → Prop
  | nil (role : Role) : RearrangedItems role [] []
  | cons {role : Role} {v v' : Json} {items items' : List Json} (h : Rearranged role v v')
      (hitems : RearrangedItems role items items') : RearrangedItems role (v :: items) (v' :: items')

inductive RearrangedFields : Role → List (String × Json) → List (String × Json) → Prop
  | nil (role : Role) : RearrangedFields role [] []
  | cons {role : Role} (key : String) {v v' : Json} {fields fields' : List (String × Json)}
      (h : Rearranged (role.under key) v v') (hfields : RearrangedFields role fields fields') :
      RearrangedFields role ((key, v) :: fields) ((key, v') :: fields')
end

section Inversion

variable {role : Role} {v w : Json}

theorem RearrangedItems.forall₂ {items items' : List Json} (h : RearrangedItems role items items') :
    List.Forall₂ (Rearranged role) items items' := by
  induction items generalizing items' with
  | nil =>
    cases h
    exact .nil
  | cons v items ih =>
    cases h with
    | cons h hitems => exact .cons h (ih hitems)

theorem RearrangedFields.alike {fields fields' : List (String × Json)}
    (h : RearrangedFields role fields fields') :
    Alike (fun key => Rearranged (role.under key)) fields fields' := by
  induction fields generalizing fields' with
  | nil =>
    cases h
    exact .nil
  | cons f fields ih =>
    cases h with
    | cons key h hfields => exact .cons ⟨rfl, h⟩ (ih hfields)

theorem alike_refl (role : Role) (fields : List (String × Json)) :
    Alike (fun key => Rearranged (role.under key)) fields fields :=
  List.forall₂_same.mpr fun _ _ => ⟨rfl, .same _ _⟩

theorem Rearranged.exists_items {items : List Json} (h : Rearranged role (.array items) w) :
    ∃ items', w = .array items' ∧ List.Forall₂ (Rearranged role) items items' := by
  cases h with
  | same => exact ⟨items, rfl, List.forall₂_same.mpr fun _ _ => .same _ _⟩
  | array h => exact ⟨_, rfl, h.forall₂⟩

theorem Rearranged.exists_fields {fields : List (String × Json)}
    (h : Rearranged role (.object fields) w) : ∃ all, w = .object all ∧ ∀ key ∈ role.keys fields,
      Option.Rel (Option.Rel (Rearranged (role.under key))) (field? key fields) (field? key all) := by
  cases h with
  | same => exact ⟨fields, rfl, fun key _ => field?_of_alike (alike_refl role fields) key⟩
  | @object _ _ fields' extra all hfields hextra hall =>
    refine ⟨all, rfl, fun key hkey => ?_⟩
    have hne : ∀ e ∈ extra, e.1 ≠ key := fun e he heq => (hextra e he).2.2 (heq ▸ hkey)
    rw [field?_of_perm hall, field?_append_of_forall_ne hne]
    exact field?_of_alike hfields.alike key

theorem Rearranged.eq_string {s : String} (h : Rearranged role (.string s) w) : w = .string s := by
  cases h
  rfl

/-- The sides of a die stand alone in their object. -/
theorem Rearranged.exists_sides {v : Json} (h : Rearranged .faces (.object [("sides", v)]) w) :
    ∃ v', w = .object [("sides", v')] ∧ Rearranged .formula v v' := by
  cases h with
  | same => exact ⟨v, rfl, .same _ _⟩
  | @object _ _ fields' extra all hfields hextra hall =>
    cases hfields with
    | @cons _ _ _ v' _ _ h hrest =>
      cases hrest
      obtain rfl : extra = [] := List.eq_nil_iff_forall_not_mem.mpr fun e he => (hextra e he).1 rfl
      exact ⟨v', by rw [List.perm_singleton.mp hall], h⟩

end Inversion

end Json

end DiceNotation

import DiceNotation.Formula.Decode
import DiceNotation.Formula.Encode
import DiceNotation.Proofs.Formula.Records

/-!
A formula comes back from its JSON, also where that has been rearranged. Each kind of object is read
field by field; the depth of the JSON bounds how deep formulas nest in it.
-/

namespace DiceNotation

open Json (Rearranged Record)

namespace Formula.Decode

section

variable {d : Nat} {inner : Json → Option Formula} {r : Record} {all : List (String × Json)}

theorem restores_faces (hinner : Restores d inner .formula toJson) :
    Restores d (faces? inner) .faces facesToJson := by
  intro faces w hdepth h
  cases faces with
  | fate =>
    rw [facesToJson] at h
    rw [h.eq_string]
    rfl
  | sides count =>
    rw [facesToJson] at h hdepth
    obtain ⟨v, rfl, hv⟩ := h.exists_sides
    have hlt := Json.depth_lt_of_mem_fields (List.mem_singleton_self ("sides", count.toJson))
    rw [faces?, hinner count v (by omega) hv]
    rfl

theorem restores_target (hinner : Restores d inner .formula toJson) :
    Restores d (target? inner) .target fun t => .object (targetFields t) := by
  rintro ⟨relation, value⟩ w hdepth h
  obtain ⟨all, rfl, hall⟩ := h.exists_keeps (Nat.le_succ_of_le hdepth)
  have hrelation := hall.optional 0 "mod" .equal relation (restores_word d .other) rfl rfl List.mem_cons_self
  have hvalue := hall.required 1 "expr" value hinner rfl rfl
    (List.mem_cons_of_mem _ List.mem_cons_self)
  simp [target?, Record.ofJson?, targetOf, hrelation, hvalue]

theorem targetToJson_eq (t : Option (Target Formula)) :
    targetToJson t = t.map fun t => .object (targetFields t) := by
  cases t <;> rfl

theorem modifier?_of_keeps {fields : List (String × Json)}
    (hall : (Record.named all).Keeps d .modifier fields) (name : String)
    (htype : Json.field? "type" fields = some (some (.string name))) :
    modifier? inner (.object all) =
      modifierOf inner (.named all) (modifierNames.findIdx (· == name)) := by
  rw [modifier?, hall.field?_string htype List.mem_cons_self]
  rfl

theorem mem_keys_modifier {name key : String} (h : key ∈ Role.modifierKeys name)
    (rest : List (String × Json)) : key ∈ Role.keys .modifier (("type", .string name) :: rest) :=
  List.mem_cons_of_mem _ h

theorem keepDropOf_of_keeps (hinner : Restores d inner .formula toJson) {name : String}
    {extreme : Extreme} {count : Formula} (hkeys : Role.modifierKeys name = ["highlow", "expr"])
    (hr : r.Keeps d .modifier
      [("type", .string name), ("highlow", .ofWord extreme), ("expr", count.toJson)])
    (make : Extreme → Formula → Modifier Formula) :
    keepDropOf inner make r = some (make extreme count) := by
  have hextreme := hr.required 0 "highlow" extreme (restores_word d .other) rfl rfl
    (mem_keys_modifier (by simp [hkeys]) _)
  have hcount := hr.required 1 "expr" count hinner rfl rfl
    (mem_keys_modifier (by simp [hkeys]) _)
  simp [keepDropOf, hextreme, hcount]

theorem targetOf_of_keeps (hinner : Restores d inner .formula toJson) {name : String}
    {t : Target Formula} (hkeys : Role.modifierKeys name = ["mod", "expr"])
    (hr : r.Keeps d .modifier (("type", .string name) :: targetFields t)) :
    targetOf inner r = some t := by
  obtain ⟨relation, value⟩ := t
  have hrelation := hr.optional 0 "mod" .equal relation (restores_word d .other) rfl rfl
    (mem_keys_modifier (by simp [hkeys]) _)
  have hvalue := hr.required 1 "expr" value hinner rfl rfl
    (mem_keys_modifier (by simp [hkeys]) _)
  simp [targetOf, hrelation, hvalue]

theorem explodeOf_of_keeps (hinner : Restores d inner .formula toJson) {mode : Explosion}
    {t : Option (Target Formula)}
    (hr : r.Keeps d .modifier ([("type", .string "explode"), ("mode", .ofWord mode)]
      ++ Json.present "target" (targetToJson t))) :
    explodeOf inner r = some (.explode mode t) := by
  rw [targetToJson_eq] at hr
  have hmode := hr.optional 0 "mode" .explode mode (restores_word d .other)
    (by simp [Json.field?]) rfl (mem_keys_modifier (by simp [Role.modifierKeys]) _)
  have htarget := hr.nullable 1 "target" t (restores_target hinner) rfl
    (by simp [Json.field?]) rfl (mem_keys_modifier (by simp [Role.modifierKeys]) _)
  simp [explodeOf, hmode, htarget]

theorem rerollOf_of_keeps (hinner : Restores d inner .formula toJson) {once : Bool}
    {t : Option (Target Formula)}
    (hr : r.Keeps d .modifier ([("type", .string "reroll"), ("once", .bool once)]
      ++ Json.present "target" (targetToJson t))) :
    rerollOf inner r = some (.reroll once t) := by
  rw [targetToJson_eq] at hr
  have honce := hr.optional 0 "once" false once (restores_bool d .other)
    (by simp [Json.field?]) rfl (mem_keys_modifier (by simp [Role.modifierKeys]) _)
  have htarget := hr.nullable 1 "target" t (restores_target hinner) rfl
    (by simp [Json.field?]) rfl (mem_keys_modifier (by simp [Role.modifierKeys]) _)
  simp [rerollOf, honce, htarget]

theorem restores_modifier (hinner : Restores d inner .formula toJson) :
    Restores d (modifier? inner) .modifier modToJson := by
  intro m w hdepth h
  have hkeeps : ∀ fields, modToJson m = .object fields →
      ∃ all, w = .object all ∧ (Record.named all).Keeps d .modifier fields := fun fields hm =>
    (hm ▸ h).exists_keeps (Nat.le_succ_of_le (hm ▸ hdepth))
  cases m with
  | keep extreme count | drop extreme count =>
    obtain ⟨all, rfl, hall⟩ := hkeeps _ rfl
    rw [modifier?_of_keeps hall _ rfl]
    exact keepDropOf_of_keeps hinner rfl hall _
  | success t | failure t | critical t | criticalFailure t =>
    obtain ⟨all, rfl, hall⟩ := hkeeps _ rfl
    rw [modifier?_of_keeps hall _ (by cases t; rfl)]
    exact congrArg (Option.map _) (targetOf_of_keeps hinner rfl hall)
  | explode mode t =>
    obtain ⟨all, rfl, hall⟩ := hkeeps _ rfl
    rw [modifier?_of_keeps hall "explode" (by simp [Json.field?])]
    exact explodeOf_of_keeps hinner hall
  | reroll once t =>
    obtain ⟨all, rfl, hall⟩ := hkeeps _ rfl
    rw [modifier?_of_keeps hall "reroll" (by simp [Json.field?])]
    exact rerollOf_of_keeps hinner hall
  | unknown =>
    obtain ⟨all, rfl, hall⟩ := hkeeps _ rfl
    rw [modifier?_of_keeps hall _ rfl]
    rfl

theorem modsToJson_eq (ms : List (Modifier Formula)) : modsToJson ms = ms.map modToJson := by
  induction ms with
  | nil => rfl
  | cons m ms ih => rw [modsToJson, ih, List.map_cons]

theorem membersToJson_eq (fs : List Formula) : membersToJson fs = fs.map toJson := by
  induction fs with
  | nil => rfl
  | cons f fs ih => rw [membersToJson, ih, List.map_cons]

/-- One step of a sum or of arithmetic. -/
def operationToJson {ω : Type} [Word ω] (t : ω × Formula) : Json :=
  .object [("op", .ofWord t.1), ("tail", t.2.toJson)]

theorem diceTailToJson_eq (tail : List (Sign × Formula)) :
    diceTailToJson tail = tail.map operationToJson := by
  induction tail with
  | nil => rfl
  | cons t tail ih => rw [diceTailToJson, ih, List.map_cons, operationToJson]

theorem mathTailToJson_eq (tail : List (Operator × Formula)) :
    mathTailToJson tail = tail.map operationToJson := by
  induction tail with
  | nil => rfl
  | cons t tail ih => rw [mathTailToJson, ih, List.map_cons, operationToJson]

theorem restores_operation {ω : Type} [Word ω] (hinner : Restores d inner .formula toJson) :
    Restores d (operation? inner ω) .operation operationToJson := by
  rintro ⟨op, f⟩ w hdepth h
  obtain ⟨all, rfl, hall⟩ := h.exists_keeps (Nat.le_succ_of_le hdepth)
  have hop := hall.required 0 "op" op (restores_word d .other) rfl rfl List.mem_cons_self
  have hf := hall.required 1 "tail" f hinner rfl rfl (List.mem_cons_of_mem _ List.mem_cons_self)
  simp [operation?, Record.ofJson?, hop, hf]

def matchingJson (m : Matching Formula) : Json :=
  .object ([("min", m.least.toJson), ("count", .bool m.counted)]
    ++ Json.present "target" (targetToJson m.filter))

theorem matchingToJson_eq (m : Option (Matching Formula)) :
    matchingToJson m = m.map matchingJson := by
  cases m <;> rfl

theorem restores_matching (hinner : Restores d inner .formula toJson) :
    Restores d (matching? inner) .matching matchingJson := by
  rintro ⟨least, counted, filter⟩ w hdepth h
  obtain ⟨all, rfl, hall⟩ := h.exists_keeps (Nat.le_succ_of_le hdepth)
  rw [targetToJson_eq] at hall
  have hleast := hall.required 0 "min" least hinner (by simp [Json.field?]) rfl (by simp [Role.keys])
  have hcounted := hall.optional 1 "count" false counted (restores_bool d .other)
    (by simp [Json.field?]) rfl (by simp [Role.keys])
  have hfilter := hall.nullable 2 "target" filter (restores_target hinner) rfl
    (by simp [Json.field?]) rfl (by simp [Role.keys])
  simp [matching?, Record.ofJson?, hleast, hcounted, hfilter]

/-- The fields of a formula, as they are written. -/
def fieldsOf (shape : Shape) (label : Option String) : List (String × Json) :=
  shape.fields ++ Json.present "label" (label.map .string)

/-- The name of the type of a formula. -/
def typeOf : Shape → String
  | .number _ => "number"
  | .die _ => "die"
  | .diceSum _ _ => "diceexpr"
  | .arithmetic _ _ => "expression"
  | .group _ _ _ => "group"
  | .function _ _ => "mathfunction"
  | .replacement _ _ => "replacement"
  | .inline _ => "inline"
  | .unknown => "unsupported"

theorem typeName_fieldsOf (shape : Shape) (label : Option String) :
    Role.typeName (fieldsOf shape label) = typeOf shape := by
  cases shape <;> rfl

theorem mem_keys_fieldsOf {shape : Shape} {key : String} (h : key ∈ Role.formulaKeys (typeOf shape))
    (label : Option String) : key ∈ Role.keys .formula (fieldsOf shape label) := by
  rw [Role.keys, typeName_fieldsOf]
  exact List.mem_cons_of_mem _ (List.mem_cons_of_mem _ h)

theorem field?_type_fieldsOf (shape : Shape) (label : Option String) :
    Json.field? "type" (fieldsOf shape label) = some (some (.string (typeOf shape))) := by
  cases shape <;> simp [Json.field?, fieldsOf, Shape.fields, typeOf]

theorem field?_label_fieldsOf (shape : Shape) (label : Option String) :
    Json.field? "label" (fieldsOf shape label) =
      Json.field? "label" (Json.present "label" (label.map .string)) := by
  cases shape <;> simp [Json.field?, fieldsOf, Shape.fields]

theorem dieOf_of_keeps (hinner : Restores d inner .formula toJson) {die : Die Formula}
    {label : Option String} (hr : r.Keeps d .formula (fieldsOf (.die die) label)) :
    dieOf inner r = some die := by
  have hkeys : ∀ key ∈ Role.formulaKeys "die", key ∈ Role.keys .formula (fieldsOf (.die die) label) :=
    fun _ h => mem_keys_fieldsOf h label
  simp only [Role.formulaKeys, List.forall_mem_cons] at hkeys
  obtain ⟨kcount, kfaces, kmods, ktargets, kmatching, ksorting, -⟩ := hkeys
  obtain ⟨count, faces, mods, targets, matching, sorting⟩ := die
  rw [fieldsOf, Shape.fields, modsToJson_eq, modsToJson_eq, matchingToJson_eq] at *
  have hcount := hr.required 0 "count" count hinner (by simp [Json.field?]) rfl kcount
  have hfaces := hr.required 1 "die" faces (restores_faces hinner) (by simp [Json.field?]) rfl kfaces
  have hmods := hr.optional_list 2 "mods" mods (restores_modifier hinner) (by simp [Json.field?]) rfl
    kmods
  have htargets := hr.optional_list 3 "targets" targets (restores_modifier hinner)
    (by simp [Json.field?]) rfl ktargets
  have hmatching := hr.nullable 4 "match" matching (restores_matching hinner) rfl
    (by simp [Json.field?]) rfl kmatching
  have hsorting := hr.nullable 5 "sort" sorting (restores_word d .other) rfl
    (by simp [Json.field?]) rfl ksorting
  simp [dieOf, hcount, hfaces, hmods, htargets, hmatching, hsorting]

theorem shapeOf_of_keeps (hinner : Restores d inner .formula toJson) {shape : Shape}
    {label : Option String} (hr : r.Keeps d .formula (fieldsOf shape label)) :
    shapeOf inner r (shapeNames.findIdx (· == typeOf shape)) = some shape := by
  have hkeys : ∀ key ∈ Role.formulaKeys (typeOf shape),
      key ∈ Role.keys .formula (fieldsOf shape label) := fun _ h => mem_keys_fieldsOf h label
  cases shape with
  | number n =>
    have hvalue := hr.required 0 "value" n (restores_number d .other)
      (by simp [Json.field?, fieldsOf, Shape.fields]) rfl
      (hkeys _ (by simp [typeOf, Role.formulaKeys]))
    exact congrArg (Option.map Shape.number) hvalue
  | die die => exact congrArg (Option.map Shape.die) (dieOf_of_keeps hinner hr)
  | diceSum head tail =>
    have hhead := hr.required 0 "head" head hinner
      (by simp [Json.field?, fieldsOf, Shape.fields]) rfl
      (hkeys _ (by simp [typeOf, Role.formulaKeys]))
    have htail := hr.optional 1 "ops" [] tail (restores_operation hinner).list
      (by simp [Json.field?, fieldsOf, Shape.fields, diceTailToJson_eq]) rfl
      (hkeys _ (by simp [typeOf, Role.formulaKeys]))
    simp [shapeOf, shapeNames, typeOf, List.findIdx_cons, hhead, htail]
  | arithmetic head tail =>
    have hhead := hr.required 0 "head" head hinner
      (by simp [Json.field?, fieldsOf, Shape.fields]) rfl
      (hkeys _ (by simp [typeOf, Role.formulaKeys]))
    have htail := hr.optional 1 "ops" [] tail (restores_operation hinner).list
      (by simp [Json.field?, fieldsOf, Shape.fields, mathTailToJson_eq]) rfl
      (hkeys _ (by simp [typeOf, Role.formulaKeys]))
    simp [shapeOf, shapeNames, typeOf, List.findIdx_cons, hhead, htail]
  | group first others mods =>
    have hmembers := hr.required 0 "rolls" (first :: others) hinner.list
      (by simp [Json.field?, fieldsOf, Shape.fields, membersToJson_eq]) rfl
      (hkeys _ (by simp [typeOf, Role.formulaKeys]))
    have hmods := hr.optional_list 1 "mods" mods (restores_modifier hinner)
      (by simp [Json.field?, fieldsOf, Shape.fields, modsToJson_eq]) rfl
      (hkeys _ (by simp [typeOf, Role.formulaKeys]))
    simp [shapeOf, shapeNames, typeOf, List.findIdx_cons, hmembers, hmods]
  | function f argument =>
    have hf := hr.required 0 "op" f (restores_word d .other)
      (by simp [Json.field?, fieldsOf, Shape.fields]) rfl
      (hkeys _ (by simp [typeOf, Role.formulaKeys]))
    have hargument := hr.required 1 "expr" argument hinner
      (by simp [Json.field?, fieldsOf, Shape.fields]) rfl
      (hkeys _ (by simp [typeOf, Role.formulaKeys]))
    simp [shapeOf, shapeNames, typeOf, List.findIdx_cons, hf, hargument]
  | replacement name argument =>
    have hname := hr.required 0 "name" name (restores_string d .other)
      (by simp [Json.field?, fieldsOf, Shape.fields]) rfl
      (hkeys _ (by simp [typeOf, Role.formulaKeys]))
    have hargument := hr.required 1 "expr" argument hinner
      (by simp [Json.field?, fieldsOf, Shape.fields]) rfl
      (hkeys _ (by simp [typeOf, Role.formulaKeys]))
    simp [shapeOf, shapeNames, typeOf, List.findIdx_cons, hname, hargument]
  | inline argument =>
    have hargument := hr.required 0 "expr" argument hinner
      (by simp [Json.field?, fieldsOf, Shape.fields]) rfl
      (hkeys _ (by simp [typeOf, Role.formulaKeys]))
    exact congrArg (Option.map Shape.inline) hargument
  | unknown => rfl

theorem formulaOf_of_keeps (hinner : Restores d inner .formula toJson) {shape : Shape}
    {label : Option String} (hall : (Record.named all).Keeps d .formula (fieldsOf shape label)) :
    formulaOf inner all = some ⟨shape, label⟩ := by
  have hlabel := hall.nullable 0 "label" label (restores_string d .other) rfl
    (field?_label_fieldsOf shape label) rfl (by simp [Role.keys])
  have htype := hall.field?_string (field?_type_fieldsOf shape label) List.mem_cons_self
  have hshape := shapeOf_of_keeps hinner hall
  simp [formulaOf, hlabel, htype, type?, hshape]

end

end Formula.Decode

/-- Rearranged JSON of a formula stands for the formula, where the bound lets it nest as deep as its
own JSON does. -/
theorem Formula.restores_ofJson? (d : Nat) : Restores d (ofJson? d) .formula toJson := by
  induction d with
  | zero =>
    rintro ⟨shape, label⟩ w hdepth -
    rw [toJson, Json.depth] at hdepth
    omega
  | succ d ih =>
    rintro ⟨shape, label⟩ w hdepth h
    obtain ⟨all, rfl, hall⟩ := h.exists_keeps hdepth
    exact Decode.formulaOf_of_keeps ih hall

end DiceNotation

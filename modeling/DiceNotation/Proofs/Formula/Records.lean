import DiceNotation.Proofs.Formula.Rearranged
import DiceNotation.Proofs.Json.Depth
import DiceNotation.Proofs.Number.Range

/-!
Values and records that come back from rearranged JSON. A field that a record knows is found where the
fields have been moved, and is read as what it was written for.
-/

namespace DiceNotation

open Json (Rearranged Record)

/-- Values written by `encode` that nest no deeper than `d` are read as what they were written for,
also rearranged. -/
def Restores {α : Type} (d : Nat) (read : Json → Option α) (role : Role) (encode : α → Json) :
    Prop :=
  ∀ a w, (encode a).depth ≤ d → Rearranged role (encode a) w → read w = some a

section Values

variable {α : Type} {d : Nat} {role : Role}

theorem restores_word (d : Nat) (role : Role) [Word α] :
    Restores d (Json.word? : Json → Option α) role Json.ofWord := by
  intro w v _ h
  rw [Json.ofWord] at h
  rw [h.eq_string]
  exact Word.ofName?_name w

theorem restores_string (d : Nat) (role : Role) : Restores d Json.string? role .string := by
  intro s v _ h
  rw [h.eq_string]
  rfl

theorem restores_bool (d : Nat) (role : Role) : Restores d Json.bool? role .bool := by
  intro b v _ h
  cases h
  rfl

theorem restores_number (d : Nat) (role : Role) : Restores d Json.number? role .ofNumber := by
  intro n v _ h
  cases n with
  | float x =>
    cases h
    rfl
  | int i =>
    cases h
    have hfits : Number.Fits i.toInt := ⟨i.le_toInt, by have := i.toInt_lt; omega⟩
    rw [Json.ofNumber, Json.number?, Number.ofInt_of_fits hfits, Int64.ofInt_toInt]

theorem Restores.list {read : Json → Option α} {encode : α → Json}
    (h : Restores d read role encode) :
    Restores d (Json.list? read) role fun as => .array (as.map encode) := by
  intro as w hdepth hw
  obtain ⟨items, rfl, hitems⟩ := hw.exists_items
  have hle : ∀ v ∈ as.map encode, v.depth ≤ d := fun v hv =>
    Nat.le_trans (Nat.le_of_lt (Json.depth_lt_of_mem_items hv)) hdepth
  rw [Json.list?]
  clear hdepth hw
  induction as generalizing items with
  | nil =>
    cases hitems
    rfl
  | cons a as ih =>
    cases hitems with
    | @cons _ v _ items ha hitems =>
      obtain ⟨hfirst, hrest⟩ := List.forall_mem_cons.mp hle
      rw [List.mapM_cons, h a v hfirst ha, ih items hitems hrest]
      rfl

end Values

namespace Json.Record

/-- The record of an object with given fields, rearranged. -/
structure Keeps (r : Record) (d : Nat) (role : Role) (fields : List (String × Json)) : Prop where
  depth : ∀ key v, field? key fields = some (some v) → v.depth ≤ d
  get : ∀ key ∈ role.keys fields, ∀ place,
    Option.Rel (Option.Rel (Rearranged (role.under key))) (field? key fields) (r.get? place key)

section Fields

variable {α : Type} {r : Record} {d : Nat} {role inner : Role} {fields : List (String × Json)}
  {key : String} {read : Json → Option α} {encode : α → Json}

theorem Keeps.get_present (h : r.Keeps d role fields) (place : Nat)
    (hread : Restores d read inner encode) {a : α}
    (hfield : field? key fields = some (some (encode a))) (hrole : role.under key = inner)
    (hkey : key ∈ role.keys fields) :
    ∃ w, r.get? place key = some (some w) ∧ read w = some a := by
  have hget := h.get key hkey place
  rw [hfield, hrole] at hget
  generalize r.get? place key = found at hget
  cases hget with
  | @some _ found hget =>
    cases hget with
    | @some _ w hw => exact ⟨w, rfl, hread a w (h.depth key _ hfield) hw⟩

theorem Keeps.get_absent (h : r.Keeps d role fields) (place : Nat)
    (hfield : field? key fields = some none) (hkey : key ∈ role.keys fields) :
    r.get? place key = some none := by
  have hget := h.get key hkey place
  rw [hfield] at hget
  generalize r.get? place key = found at hget
  cases hget with
  | @some _ found hget =>
    cases hget
    rfl

theorem Keeps.required (h : r.Keeps d role fields) (place : Nat) (key : String) (a : α)
    (hread : Restores d read inner encode)
    (hfield : field? key fields = some (some (encode a))) (hrole : role.under key = inner)
    (hkey : key ∈ role.keys fields) : r.required place key read = some a := by
  obtain ⟨w, hget, hw⟩ := h.get_present place hread hfield hrole hkey
  simp [Record.required, hget, hw]

theorem Keeps.optional (h : r.Keeps d role fields) (place : Nat) (key : String) (absent a : α)
    (hread : Restores d read inner encode)
    (hfield : field? key fields = some (some (encode a))) (hrole : role.under key = inner)
    (hkey : key ∈ role.keys fields) : r.optional place key absent read = some a := by
  obtain ⟨w, hget, hw⟩ := h.get_present place hread hfield hrole hkey
  simp [Record.optional, hget, hw]

/-- A list that is left out when it is empty. -/
theorem Keeps.optional_list (h : r.Keeps d role fields) (place : Nat) (key : String) (as : List α)
    (hread : Restores d read inner encode)
    (hfield : field? key fields = field? key (nonempty key (as.map encode)))
    (hrole : role.under key = inner) (hkey : key ∈ role.keys fields) :
    r.optional place key [] (list? read) = some as := by
  cases as with
  | nil =>
    have hget := h.get_absent place hfield hkey
    simp [Record.optional, hget]
  | cons a as =>
    refine h.optional place key [] (a :: as) hread.list (hfield.trans ?_) hrole hkey
    simp [field?, nonempty]

/-- A part that is left out when there is none. -/
theorem Keeps.nullable (h : r.Keeps d role fields) (place : Nat) (key : String) (a : Option α)
    (hread : Restores d read inner encode) (hnull : read .null = none)
    (hfield : field? key fields = field? key (present key (a.map encode)))
    (hrole : role.under key = inner) (hkey : key ∈ role.keys fields) :
    r.nullable place key read = some a := by
  cases a with
  | none =>
    have hget := h.get_absent place hfield hkey
    simp [Record.nullable, hget]
  | some a =>
    have hsome : field? key (present key (some (encode a))) = some (some (encode a)) := by
      simp [field?, present]
    obtain ⟨w, hget, hw⟩ := h.get_present place hread (hfield.trans hsome) hrole hkey
    have hne : w ≠ .null := fun heq => by simp [heq, hnull] at hw
    cases w <;> simp_all [Record.nullable]

end Fields

end Json.Record

namespace Json

theorem mem_of_field? {key : String} {fields : List (String × Json)} {v : Json}
    (h : field? key fields = some (some v)) : (key, v) ∈ fields := by
  unfold field? at h
  split at h
  · cases h
  · rename_i k u hfound
    cases h
    have hmem : (k, v) ∈ fields.filter fun f => f.1 == key := hfound ▸ List.mem_cons_self
    obtain ⟨hmem, hkey⟩ := List.mem_filter.mp hmem
    exact beq_iff_eq.mp hkey ▸ hmem
  · cases h

theorem Rearranged.exists_keeps {d : Nat} {role : Role} {fields : List (String × Json)} {w : Json}
    (h : Rearranged role (.object fields) w) (hdepth : (Json.object fields).depth ≤ d + 1) :
    ∃ all, w = .object all ∧ (Record.named all).Keeps d role fields := by
  obtain ⟨all, rfl, hall⟩ := h.exists_fields
  refine ⟨all, rfl, ⟨fun key v hfield => ?_, fun key hkey _ => hall key hkey⟩⟩
  have hlt := depth_lt_of_mem_fields (mem_of_field? hfield)
  omega

theorem Record.Keeps.field?_string {d : Nat} {role : Role} {fields all : List (String × Json)}
    {key s : String} (h : (Record.named all).Keeps d role fields)
    (hfield : field? key fields = some (some (.string s))) (hkey : key ∈ role.keys fields) :
    field? key all = some (some (.string s)) := by
  have hget := h.get key hkey 0
  rw [hfield, Record.get?] at hget
  generalize field? key all = found at hget ⊢
  cases hget with
  | @some _ found hget =>
    cases hget with
    | @some _ w hw => rw [hw.eq_string]

end Json

end DiceNotation

import DiceNotation.Json.Record
import Mathlib.Data.List.Forall2
import Mathlib.Data.Option.Basic

/-!
Fields by key. What stands under a key does not depend on the order of the fields, nor on fields with
other keys.
-/

namespace DiceNotation.Json

theorem field?_of_filter {key : String} {fields all : List (String × Json)}
    (h : (all.filter fun f => f.1 == key).Perm (fields.filter fun f => f.1 == key)) :
    field? key all = field? key fields := by
  unfold field?
  generalize all.filter (fun f => f.1 == key) = found at h
  generalize fields.filter (fun f => f.1 == key) = others at h
  match others, h with
  | [], h => rw [h.eq_nil]
  | [_], h => rw [List.perm_singleton.mp h]
  | _ :: _ :: _, h =>
    have hlength := h.length_eq
    match found, hlength with
    | _ :: _ :: _, _ => rfl

theorem field?_of_perm {fields all : List (String × Json)} (h : all.Perm fields) (key : String) :
    field? key all = field? key fields :=
  field?_of_filter (h.filter _)

theorem field?_append_of_forall_ne {extra : List (String × Json)} {key : String}
    (h : ∀ e ∈ extra, e.1 ≠ key) (fields : List (String × Json)) :
    field? key (fields ++ extra) = field? key fields := by
  have hextra : (extra.filter fun f => f.1 == key) = [] :=
    List.filter_eq_nil_iff.mpr fun e he => by simpa using h e he
  refine field?_of_filter ?_
  rw [List.filter_append, hextra, List.append_nil]

/-- Fields with the same keys and related values. -/
def Alike (R : String → Json → Json → Prop) : List (String × Json) → List (String × Json) → Prop :=
  List.Forall₂ fun a b => a.1 = b.1 ∧ R a.1 a.2 b.2

theorem field?_of_alike {R : String → Json → Json → Prop} {fields fields' : List (String × Json)}
    (h : Alike R fields fields') (key : String) :
    Option.Rel (Option.Rel (R key)) (field? key fields) (field? key fields') := by
  have hfilter : Alike R (fields.filter fun f => f.1 == key) (fields'.filter fun f => f.1 == key) :=
    List.rel_filter (fun a b hab => by simp [hab.1]) h
  have hkey : ∀ f ∈ fields.filter (fun f => f.1 == key), f.1 = key := fun f hf =>
    beq_iff_eq.mp (List.mem_filter.mp hf).2
  unfold field?
  generalize fields.filter (fun f => f.1 == key) = found at hfilter hkey
  generalize fields'.filter (fun f => f.1 == key) = found' at hfilter
  cases hfilter with
  | nil => exact .some .none
  | @cons a b found found' hfirst hrest =>
    cases hrest with
    | nil => exact .some (.some (hkey a List.mem_cons_self ▸ hfirst.2))
    | cons => exact .none

@[simp] theorem filter_present (key k : String) (v : Option Json) :
    ((present k v).filter fun f => f.1 == key) = if k = key then present k v else [] := by
  cases v <;> simp [present, List.filter_cons]

@[simp] theorem filter_nonempty (key k : String) (items : List Json) :
    ((nonempty k items).filter fun f => f.1 == key) = if k = key then nonempty k items else [] := by
  cases items <;> simp [nonempty, List.filter_cons]

end DiceNotation.Json

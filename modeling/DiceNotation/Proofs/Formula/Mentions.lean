import DiceNotation.Formula.Names
import DiceNotation.Proofs.Formula.Parts
import Mathlib.Data.List.Induction
import Mathlib.Data.List.Nodup

/-! The replacements that a formula mentions, and the names to resolve for it: those of all its
replacements, each once, in the order in which they come first. -/

namespace DiceNotation

/-- The names are those of a longer list, each once, in the order in which they come there first. -/
structure FirstMet (names all : List String) : Prop where
  nodup : names.Nodup
  mem_iff : ∀ name, name ∈ names ↔ name ∈ all
  order : names.Pairwise fun a b => all.idxOf a < all.idxOf b

section FirstMet

variable {names all : List String} {name : String}

theorem FirstMet.snoc_of_mem (h : FirstMet names all) (hname : name ∈ all) :
    FirstMet names (all ++ [name]) where
  nodup := h.nodup
  mem_iff other := by
    rw [h.mem_iff, List.mem_append, List.mem_singleton]
    exact ⟨.inl, fun hother => hother.elim id fun heq => heq ▸ hname⟩
  order := h.order.imp_of_mem fun ha hb hlt => by
    rwa [List.idxOf_append_of_mem ((h.mem_iff _).mp ha),
      List.idxOf_append_of_mem ((h.mem_iff _).mp hb)]

theorem FirstMet.snoc_of_not_mem (h : FirstMet names all) (hname : name ∉ all) :
    FirstMet (names ++ [name]) (all ++ [name]) where
  nodup := by
    refine List.nodup_append.mpr ⟨h.nodup, List.nodup_singleton _, fun a ha b hb hab => ?_⟩
    rw [List.mem_singleton.mp hb] at hab
    exact hname ((h.mem_iff name).mp (hab ▸ ha))
  mem_iff other := by
    rw [List.mem_append, List.mem_append, h.mem_iff]
  order := by
    refine List.pairwise_append.mpr ⟨?_, List.pairwise_singleton _ _, fun a ha b hb => ?_⟩
    · refine h.order.imp_of_mem fun ha hb hlt => ?_
      rwa [List.idxOf_append_of_mem ((h.mem_iff _).mp ha),
        List.idxOf_append_of_mem ((h.mem_iff _).mp hb)]
    · obtain rfl := List.mem_singleton.mp hb
      have ha := (h.mem_iff a).mp ha
      rw [List.idxOf_append_of_mem ha, List.idxOf_append_of_notMem hname]
      exact Nat.lt_add_right _ (List.idxOf_lt_length_iff.mpr ha)

theorem firstMet_foldl_addName (all : List String) : FirstMet (all.foldl addName []) all := by
  induction all using List.reverseRecOn with
  | nil => exact ⟨.nil, fun _ => .rfl, .nil⟩
  | append_singleton all name ih =>
    rw [List.foldl_append, List.foldl_cons, List.foldl_nil, addName]
    by_cases hname : name ∈ all
    · rw [if_pos (List.contains_iff_mem.mpr ((ih.mem_iff name).mpr hname))]
      exact ih.snoc_of_mem hname
    · rw [if_neg fun h => hname ((ih.mem_iff name).mp (List.contains_iff_mem.mp h))]
      exact ih.snoc_of_not_mem hname

end FirstMet

namespace Formula

/-- The name of a formula that is a replacement. -/
def replacementName? : Formula → Option String
  | ⟨.replacement name _, _⟩ => some name
  | _ => none

/-- The names of all replacements anywhere in a formula, from left to right. -/
def mentions (f : Formula) : List String :=
  (Nested.parts f).filterMap replacementName?

theorem mentions_eq (f : Formula) : f.mentions =
    f.replacementName?.toList ++ (f.operands ++ f.arguments).flatMap mentions := by
  rw [mentions, Nested.parts_eq, children_eq, List.filterMap_cons, List.filterMap_flatMap]
  cases f.replacementName? <;> rfl

end Formula

section Lists

theorem membersNames_eq (fs : List Formula) : membersNames fs = fs.flatMap Formula.names := by
  induction fs with
  | nil => rfl
  | cons f fs ih => rw [membersNames, List.flatMap_cons, ih]

theorem diceTailNames_eq (tail : List (Sign × Formula)) :
    diceTailNames tail = (tail.map Prod.snd).flatMap Formula.names := by
  induction tail with
  | nil => rfl
  | cons t tail ih => rw [diceTailNames, List.map_cons, List.flatMap_cons, ih]

theorem mathTailNames_eq (tail : List (Operator × Formula)) :
    mathTailNames tail = (tail.map Prod.snd).flatMap Formula.names := by
  induction tail with
  | nil => rfl
  | cons t tail ih => rw [mathTailNames, List.map_cons, List.flatMap_cons, ih]

theorem facesNames_eq (faces : Faces Formula) :
    facesNames faces = faces.arguments.flatMap Formula.names := by
  cases faces <;> simp [facesNames]

theorem targetNames_eq (t : Option (Target Formula)) :
    targetNames t = (t.toList.map Target.value).flatMap Formula.names := by
  cases t <;> simp [targetNames]

theorem modNames_eq (m : Modifier Formula) : modNames m = m.arguments.flatMap Formula.names := by
  cases m with
  | explode _ t | reroll _ t => exact targetNames_eq t
  | _ => simp [modNames]

theorem modsNames_eq (ms : List (Modifier Formula)) :
    modsNames ms = (ms.flatMap Modifier.arguments).flatMap Formula.names := by
  induction ms with
  | nil => rfl
  | cons m ms ih => rw [modsNames, List.flatMap_cons, List.flatMap_append, modNames_eq, ih]

theorem matchingNames_eq (matching : Option (Matching Formula)) :
    matchingNames matching = (matching.toList.flatMap Matching.arguments).flatMap Formula.names := by
  cases matching with
  | none => rfl
  | some m => simp [matchingNames, targetNames_eq]

end Lists

namespace Formula

theorem names_eq (f : Formula) : f.names =
    f.replacementName?.toList ++ (f.operands ++ f.arguments).flatMap names := by
  obtain ⟨shape, label⟩ := f
  cases shape <;>
    simp [names, Shape.names, replacementName?, membersNames_eq, diceTailNames_eq, mathTailNames_eq,
      facesNames_eq, modsNames_eq, matchingNames_eq, List.flatMap_append]

theorem names_eq_mentions (f : Formula) : f.names = f.mentions := by
  induction f using Nested.induct with
  | step f ih =>
    rw [names_eq, mentions_eq]
    congr 1
    exact List.flatMap_congr ih

/-- The names to resolve are those of all replacements, as they are met first. -/
theorem firstMet_replacements (f : Formula) : FirstMet f.replacements f.mentions := by
  rw [replacements, names_eq_mentions]
  exact firstMet_foldl_addName f.mentions

end Formula

end DiceNotation

import DiceNotation.Proofs.Grammar.WellFormed
import DiceNotation.Proofs.Writing.Basic

/-! The order of additions. Adding them to a plain die gives back the die they belong to, the order of
its parts will do where no target is taken up, and targets before modifiers are never taken up. -/

namespace DiceNotation

variable {d : Die Formula} {xs : List Addition}

theorem Die.Arranged.foldl_add (h : d.Arranged xs) :
    xs.foldl Die.add (.plain d.count d.faces) = d := by
  obtain ⟨count, faces, mods, targets, matching, sorting⟩ := d
  obtain ⟨hmods, htargets, hmatching, hsorting, -⟩ := h
  have hlast {α : Type} (o : Option α) : o.toList.getLast? = o := by cases o <;> rfl
  rw [Die.foldl_add, hmods, htargets, hmatching, hsorting, hlast, hlast]
  simp [Die.plain]

/-- What is added to a die is what the die has. -/
theorem Die.Arranged.modifiers (h : d.Arranged xs) {x : Addition} (hx : x ∈ xs) :
    ∀ m ∈ x.modifiers, m ∈ d.mods ++ d.targets := by
  intro m hm
  cases x with
  | modifier m' =>
    obtain rfl := List.mem_singleton.mp hm
    cases htarget : m.isTarget with
    | false =>
      refine List.mem_append_left _ (h.mods ▸ List.mem_filterMap.mpr ⟨_, hx, ?_⟩)
      simp [Addition.mod?, htarget]
    | true =>
      refine List.mem_append_right _ (h.targets ▸ List.mem_filterMap.mpr ⟨_, hx, ?_⟩)
      simp [Addition.target?, htarget]
  | sorting | matching => cases hm

theorem Die.Arranged.arguments (h : d.Arranged xs) {x : Addition} (hx : x ∈ xs) :
    ∀ f ∈ x.arguments, f ∈ (Formula.die d).arguments := by
  intro f hf
  cases x with
  | modifier m =>
    have hm := h.modifiers hx m List.mem_cons_self
    exact List.mem_append_left _ (List.mem_flatMap.mpr ⟨m, hm, hf⟩)
  | sorting order => cases hf
  | matching m =>
    have hm : m ∈ d.matching.toList :=
      h.matching ▸ List.mem_filterMap.mpr ⟨_, hx, rfl⟩
    exact List.mem_append_right _ (List.mem_flatMap.mpr ⟨m, hm, hf⟩)

theorem Modifier.isTarget_eq_false {m : Modifier Formula} (h : m.isForThrows = true) :
    m.isTarget = false := by
  cases m <;> first | rfl | cases h

/-- Where modifiers and targets stand in two blocks, what is sorted out of them is either. -/
theorem Die.arranged_of_blocks (h : (Shape.die d).Proper) {ms : List (Modifier Formula)}
    (hms : ms = d.mods ++ d.targets ∨ ms = d.targets ++ d.mods)
    (hxs : xs = ms.map .modifier ++ d.matching.toList.map .matching ++
      d.sorting.toList.map .sorting)
    (hapart : xs.IsChain fun x y => (x.isOpen && y.isCondition) = false) : d.Arranged xs := by
  have hmods : ∀ m ∈ d.mods, m.isTarget = false := fun m hm => Modifier.isTarget_eq_false (h.1 m hm)
  have hnone {α β : Type} (g : α → Option β) {as : List α} (hg : ∀ a ∈ as, g a = none) :
      as.filterMap g = [] := List.filterMap_eq_nil_iff.mpr hg
  have hself {α : Type} (g : α → Option α) {as : List α} (hg : ∀ a ∈ as, g a = some a) :
      as.filterMap g = as := (List.filterMap_congr hg).trans List.filterMap_some
  have hfilter {α : Type} (g : Addition → Option α) : xs.filterMap g =
      ms.filterMap (g ∘ .modifier) ++ d.matching.toList.filterMap (g ∘ .matching) ++
        d.sorting.toList.filterMap (g ∘ .sorting) := by
    rw [hxs]
    simp only [List.filterMap_append, List.filterMap_map]
  refine ⟨?_, ?_, ?_, ?_, hapart⟩ <;> rw [hfilter]
  · have hkept : d.mods.filterMap (Addition.mod? ∘ .modifier) = d.mods :=
      hself _ fun m hm => by simp [Addition.mod?, hmods m hm]
    have hdropped : d.targets.filterMap (Addition.mod? ∘ .modifier) = [] :=
      hnone _ fun m hm => by simp [Addition.mod?, h.2 m hm]
    rw [hnone (Addition.mod? ∘ .matching) fun _ _ => rfl,
      hnone (Addition.mod? ∘ .sorting) fun _ _ => rfl]
    rcases hms with rfl | rfl <;>
      simp only [List.filterMap_append, hkept, hdropped, List.append_nil, List.nil_append]
  · have hkept : d.targets.filterMap (Addition.target? ∘ .modifier) = d.targets :=
      hself _ fun m hm => by simp [Addition.target?, h.2 m hm]
    have hdropped : d.mods.filterMap (Addition.target? ∘ .modifier) = [] :=
      hnone _ fun m hm => by simp [Addition.target?, hmods m hm]
    rw [hnone (Addition.target? ∘ .matching) fun _ _ => rfl,
      hnone (Addition.target? ∘ .sorting) fun _ _ => rfl]
    rcases hms with rfl | rfl <;>
      simp only [List.filterMap_append, hkept, hdropped, List.append_nil, List.nil_append]
  · rw [hnone (Addition.matching? ∘ .modifier) fun _ _ => rfl,
      hself (Addition.matching? ∘ .matching) fun _ _ => rfl,
      hnone (Addition.matching? ∘ .sorting) fun _ _ => rfl]
    simp
  · rw [hnone (Addition.sorting? ∘ .modifier) fun _ _ => rfl,
      hnone (Addition.sorting? ∘ .matching) fun _ _ => rfl,
      hself (Addition.sorting? ∘ .sorting) fun _ _ => rfl]
    simp

/-- The order of the parts will do where no target is taken up. -/
theorem Die.InOrder.arranged (hxs : d.InOrder xs) (h : (Shape.die d).Proper)
    (hapart : xs.IsChain fun x y => (x.isOpen && y.isCondition) = false) : d.Arranged xs :=
  Die.arranged_of_blocks h (.inl rfl) (by rw [hxs, List.map_append]) hapart

/-- Targets first, then modifiers, what to match and how to sort. -/
def Die.targetsFirst (d : Die Formula) : List Addition :=
  (d.targets ++ d.mods).map .modifier ++ d.matching.toList.map .matching ++
    d.sorting.toList.map .sorting

theorem Die.arranged_targetsFirst (h : (Shape.die d).Proper) : d.Arranged d.targetsFirst := by
  refine Die.arranged_of_blocks h (.inr rfl) rfl ?_
  have htargets : ∀ x ∈ d.targets.map Addition.modifier, x.isOpen = false := by
    refine List.forall_mem_map.mpr fun m hm => ?_
    have htarget := h.2 m hm
    cases m <;> first | rfl | cases htarget
  have hrest : ∀ x ∈ d.mods.map Addition.modifier ++ d.matching.toList.map .matching ++
      d.sorting.toList.map .sorting, x.isCondition = false := by
    refine List.forall_mem_append.mpr ⟨List.forall_mem_append.mpr
      ⟨List.forall_mem_map.mpr fun m hm => ?_, List.forall_mem_map.mpr fun _ _ => rfl⟩,
      List.forall_mem_map.mpr fun _ _ => rfl⟩
    have hthrows := h.1 m hm
    cases m <;> first | rfl | cases hthrows
  rw [Die.targetsFirst, List.map_append, List.append_assoc, List.append_assoc,
    ← List.append_assoc (d.mods.map _)]
  refine List.Pairwise.isChain (List.pairwise_append.mpr ⟨?_, ?_, fun x hx y _ => ?_⟩)
  · exact List.pairwise_of_forall_mem_list fun x hx y _ => by rw [htargets x hx, Bool.false_and]
  · exact List.pairwise_of_forall_mem_list fun x _ y hy => by rw [hrest y hy, Bool.and_false]
  · rw [htargets x hx, Bool.false_and]

end DiceNotation

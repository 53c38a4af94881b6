import DiceNotation.Outcome.Assembly
import DiceNotation.Proofs.Stage.Ordering
import Mathlib.Data.List.Forall2
import Mathlib.Data.Nat.Basic
import Mathlib.Data.List.Perm.Basic

/-! What the stages of a group do to statuses. They move entries about while they work, but each
status is back in its place in the end, and all that may have happened to it is that it was dropped
or that it counts one more success or failure. -/

namespace DiceNotation

theorem forall₂_comp {α β γ : Type} {R : α → β → Prop} {S : β → γ → Prop} {T : α → γ → Prop}
    (hT : ∀ a b c, R a b → S b c → T a c) {as : List α} {bs : List β} {cs : List γ}
    (h : List.Forall₂ R as bs) (h' : List.Forall₂ S bs cs) : List.Forall₂ T as cs := by
  induction h generalizing cs with
  | nil =>
    cases h'
    exact .nil
  | cons hab _ ih =>
    obtain ⟨c, cs, hbc, hcs, rfl⟩ := List.forall₂_cons_left_iff.mp h'
    exact .cons (hT _ _ _ hab hbc) (ih hcs)

theorem forall₂_and {α β : Type} {R S : α → β → Prop} {as : List α} {bs : List β}
    (h : List.Forall₂ R as bs) (h' : List.Forall₂ S as bs) :
    List.Forall₂ (fun a b => R a b ∧ S a b) as bs := by
  induction h with
  | nil => exact .nil
  | cons hab _ ih =>
    obtain ⟨hab', hrest⟩ := List.forall₂_cons.mp h'
    exact .cons ⟨hab, hab'⟩ (ih hrest)

/-- A status that later stages may leave of another one. Its tally is as it was unless the stages
count. -/
structure Status.Marks (counting : Bool) (s s' : Status) : Prop where
  value : s'.value = s.value
  order : s'.order = s.order
  standing : s'.valid = s.valid ∧ s'.dropped = s.dropped ∨
    s.valid = true ∧ s'.valid = false ∧ s'.dropped = true
  tally : counting = false →
    s'.successes = s.successes ∧ s'.failures = s.failures ∧ s'.success = s.success

namespace Status.Marks

variable {c : Bool}

theorem refl (s : Status) : s.Marks c s :=
  ⟨rfl, rfl, Or.inl ⟨rfl, rfl⟩, fun _ => ⟨rfl, rfl, rfl⟩⟩

theorem drop {s : Status} (h : s.valid = true) : s.Marks c s.drop :=
  ⟨rfl, rfl, Or.inr ⟨h, rfl, rfl⟩, fun _ => ⟨rfl, rfl, rfl⟩⟩

theorem trans {s s' s'' : Status} (h : s.Marks c s') (h' : s'.Marks c s'') : s.Marks c s'' where
  value := h'.value.trans h.value
  order := h'.order.trans h.order
  standing := by
    rcases h'.standing with ⟨hv, hd⟩ | ⟨hv, hv', hd'⟩
    · rw [hv, hd]
      exact h.standing
    · rcases h.standing with ⟨hs, -⟩ | ⟨-, hs, -⟩
      · exact Or.inr ⟨hs ▸ hv, hv', hd'⟩
      · simp [hs] at hv
  tally hc := by
    obtain ⟨hs, hf, hb⟩ := h.tally hc
    obtain ⟨hs', hf', hb'⟩ := h'.tally hc
    exact ⟨hs'.trans hs, hf'.trans hf, hb'.trans hb⟩

theorem toCounting {s s' : Status} (h : s.Marks c s') : s.Marks true s' :=
  ⟨h.value, h.order, h.standing, fun hc => absurd hc (by decide)⟩

theorem judge (s : Status) : s.Marks true (Stage.judge s) := by
  unfold Stage.judge
  split
  · exact ⟨rfl, rfl, Or.inl ⟨rfl, rfl⟩, fun hc => absurd hc (by decide)⟩
  · exact refl s

end Status.Marks

namespace Entry

structure Marks (c : Bool) (e e' : Entry) : Prop where
  place : e'.place = e.place
  shown : e'.shown = e.shown
  status : e.status.Marks c e'.status

variable {c : Bool}

theorem Marks.refl (e : Entry) : e.Marks c e :=
  ⟨rfl, rfl, .refl _⟩

theorem Marks.trans {e e' e'' : Entry} (h : e.Marks c e') (h' : e'.Marks c e'') : e.Marks c e'' :=
  ⟨h'.place.trans h.place, h'.shown.trans h.shown, h.status.trans h'.status⟩

theorem Marks.mapStatus {e : Entry} {f : Status → Status} (h : e.status.Marks c (f e.status)) :
    e.Marks c (e.mapStatus f) :=
  ⟨rfl, rfl, h⟩

theorem forall₂_marks_trans {es es' es'' : List Entry} (h : List.Forall₂ (Marks c) es es')
    (h' : List.Forall₂ (Marks c) es' es'') : List.Forall₂ (Marks c) es es'' :=
  forall₂_comp (fun _ _ _ h h' => h.trans h') h h'

/-- Entries that have been marked and moved about. -/
def Moved (c : Bool) (es es' : List Entry) : Prop :=
  Relation.Comp (List.Forall₂ (Marks c)) List.Perm es es'

theorem Moved.of_perm {es es' : List Entry} (h : es.Perm es') : Moved c es es' :=
  ⟨es, List.forall₂_same.mpr fun e _ => .refl e, h⟩

theorem Moved.of_forall₂ {es es' : List Entry} (h : List.Forall₂ (Marks c) es es') : Moved c es es' :=
  ⟨es', h, .refl es'⟩

theorem Moved.trans {es es' es'' : List Entry} (h : Moved c es es') (h' : Moved c es' es'') :
    Moved c es es'' := by
  obtain ⟨us, hu, hperm⟩ := h
  obtain ⟨vs, hv, hperm'⟩ := h'
  obtain ⟨ws, hw, hperm''⟩ := List.perm_comp_forall₂ hperm hv
  exact ⟨ws, forall₂_marks_trans hu hw, hperm''.trans hperm'⟩

theorem Moved.toCounting {es es' : List Entry} (h : Moved c es es') : Moved true es es' := by
  obtain ⟨us, hu, hperm⟩ := h
  exact ⟨us, hu.imp fun _ _ h => ⟨h.place, h.shown, h.status.toCounting⟩, hperm⟩

end Entry

namespace Stage

variable {c : Bool}

theorem moved_stableSort (before : Entry → Entry → Bool) (es : List Entry) :
    Entry.Moved c es (stableSort before es) :=
  .of_perm (stableSort_perm before es).symm

theorem forall₂_dropFirst (n : Nat) (es : List Entry) :
    List.Forall₂ (Entry.Marks c) es (dropFirst n es) := by
  induction es generalizing n with
  | nil => simp [dropFirst_nil]
  | cons e es ih =>
    cases n with
    | zero => exact List.forall₂_same.mpr fun e _ => .refl e
    | succ n =>
      by_cases h : e.valid
      · simp only [dropFirst, h, if_true]
        exact .cons (.mapStatus (.drop h)) (ih n)
      · simp only [dropFirst, h, Bool.false_eq_true, if_false]
        exact .cons (.refl e) (ih (n + 1))

theorem moved_keep (extreme : Extreme) (count : Number) (es : List Entry) :
    Entry.Moved c es (keep extreme count es) := by
  have rest (n : Nat) {sorted : List Entry} (h : Entry.Moved c es sorted) :
      Entry.Moved c es (inOrder (dropFirst n (invalidFirst sorted))) :=
    ((h.trans (moved_stableSort _ _)).trans (.of_forall₂ (forall₂_dropFirst _ _))).trans
      (moved_stableSort _ _)
  cases extreme with
  | high | low => exact rest _ (moved_stableSort _ es)

theorem moved_drop (extreme : Extreme) (count : Number) (es : List Entry) :
    Entry.Moved c es (drop extreme count es) := by
  have rest (n : Nat) {sorted : List Entry} (h : Entry.Moved c es sorted) :
      Entry.Moved c es (inOrder (dropFirst n sorted)) :=
    (h.trans (.of_forall₂ (forall₂_dropFirst _ _))).trans (moved_stableSort _ _)
  cases extreme with
  | high | low => exact rest _ (moved_stableSort _ es)

theorem marks_success (condition : Target Number) (e : Entry) : e.Marks true (success condition e) := by
  unfold success
  split
  · exact .mapStatus ⟨rfl, rfl, Or.inl ⟨rfl, rfl⟩, fun hc => absurd hc (by decide)⟩
  · exact .refl e

theorem marks_failure (condition : Target Number) (e : Entry) : e.Marks true (failure condition e) := by
  unfold failure
  split
  · exact .mapStatus ⟨rfl, rfl, Or.inl ⟨rfl, rfl⟩, fun hc => absurd hc (by decide)⟩
  · exact .refl e

theorem moved_map {f : Entry → Entry} (h : ∀ e : Entry, e.Marks c (f e)) (es : List Entry) :
    Entry.Moved c es (es.map f) :=
  .of_forall₂ (List.forall₂_map_right_iff.mpr (List.forall₂_same.mpr fun e _ => h e))

/-- No stage that a group knows does more than to mark entries and to move them. -/
theorem moved_of_ofModifier? {m : Modifier Number} {stage : List Entry → List Entry}
    (h : ofModifier? m = some stage) (es : List Entry) : Entry.Moved m.isTarget es (stage es) := by
  cases m with
  | keep extreme count =>
    cases h
    exact moved_keep extreme count es
  | drop extreme count =>
    cases h
    exact moved_drop extreme count es
  | success condition =>
    cases h
    exact moved_map (marks_success condition) es
  | failure condition =>
    cases h
    exact moved_map (marks_failure condition) es
  | _ => simp [ofModifier?] at h

end Stage

namespace Entry

theorem pairwise_place_ofStatuses (ss : List Status) :
    (ofStatuses ss).Pairwise fun a b => a.place < b.place := by
  simp [ofStatuses, List.pairwise_iff_getElem]

theorem pairwise_place_ofThrows (ts : List Throw) :
    (ofThrows ts).Pairwise fun a b => a.place < b.place := by
  simp [ofThrows, List.pairwise_iff_getElem]

@[simp] theorem map_status_ofStatuses (ss : List Status) : (ofStatuses ss).map status = ss := by
  apply List.ext_getElem <;> simp [ofStatuses]

@[simp] theorem map_status_ofThrows (ts : List Throw) :
    (ofThrows ts).map status = ts.map Throw.status := by
  apply List.ext_getElem <;> simp [ofThrows]

theorem pairwise_place_of_forall₂ {es es' : List Entry} (h : List.Forall₂ (Marks c) es es')
    (hes : es.Pairwise fun a b => a.place < b.place) :
    es'.Pairwise fun a b => a.place < b.place := by
  have places : es'.map place = es.map place := by
    induction h with
    | nil => rfl
    | cons he _ ih => simp [he.place, ih (List.pairwise_cons.mp hes).2]
  rw [← List.pairwise_map] at hes ⊢
  rwa [places]

/-- Entries that were marked and moved come back as their statuses, each marked in its place. -/
theorem statuses_of_moved {es es' : List Entry} (h : Moved c es es')
    (hes : es.Pairwise fun a b => a.place < b.place) :
    List.Forall₂ (Status.Marks c) (es.map status) (statuses es') := by
  obtain ⟨us, hu, hperm⟩ := h
  have sorted := stableSort_eq_of_perm place hperm.symm (pairwise_place_of_forall₂ hu hes)
  rw [statuses, sorted, List.forall₂_map_left_iff, List.forall₂_map_right_iff]
  exact hu.imp fun _ _ h => h.status

end Entry

end DiceNotation

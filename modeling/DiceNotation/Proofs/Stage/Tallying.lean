import DiceNotation.Proofs.Stage.Reordering
import Mathlib.Data.List.ProdSigma

/-! What the stages of a group count. Whether or not the orders of its entries rise, every entry comes
back from the stages in its place, and has counted what it had counted before and once each target
that it meets. So the totals are what the entries brought with them, and the pairs of an entry and a
target that it meets. -/

namespace DiceNotation

/-- A status after stages that counted for it every target that its value meets. -/
structure Status.Counted (ms : List (Modifier Number)) (s s' : Status) : Prop where
  value : s'.value = s.value
  successes : s'.valid = true →
    s'.successes = s.successes + ms.countP (Stage.succeeds s'.value)
  failures : s'.valid = true →
    s'.failures = s.failures + ms.countP (Stage.fails s'.value)

namespace Stage

section Through

/-- Entries marked and counted in their places, and then moved. -/
def Counts (ms : List (Modifier Number)) (es es' : List Entry) : Prop :=
  ∃ us, List.Forall₂ (fun e e' => e.Marks true e' ∧ Tallied ms e e') es us ∧ us.Perm es'

variable {m : Modifier Number} {ms : List (Modifier Number)} {es es' : List Entry}

theorem counts_map {f : Entry → Entry} (hmarks : ∀ e, Entry.Marks true e (f e))
    (htallied : ∀ e, Tallied [m] e (f e)) (es : List Entry) : Counts [m] es (es.map f) := by
  refine ⟨es.map f, List.forall₂_map_right_iff.mpr (List.forall₂_same.mpr fun e _ => ?_), .refl _⟩
  exact ⟨hmarks e, htallied e⟩

/-- Marks that count nothing are no tally of a stage that counts nothing. -/
theorem counts_of_moved (h : Entry.Moved false es es') (hs : ∀ x, succeeds x m = false)
    (hf : ∀ x, fails x m = false) : Counts [m] es es' := by
  obtain ⟨us, hmarks, hperm⟩ := h
  refine ⟨us, hmarks.imp fun e u hmark => ?_, hperm⟩
  exact ⟨⟨hmark.place, hmark.shown, hmark.status.toCounting⟩, .of_marks hmark (hs _) (hf _)⟩

theorem counts_apply (m : Modifier Number) (es : List Entry) : Counts [m] es (apply m es) := by
  have hid (hs : ∀ x, succeeds x m = false) (hf : ∀ x, fails x m = false) : Counts [m] es es :=
    counts_of_moved (.of_perm (.refl es)) hs hf
  cases m with
  | keep extreme count =>
    exact counts_of_moved (moved_keep extreme count es) (fun _ => rfl) fun _ => rfl
  | drop extreme count =>
    exact counts_of_moved (moved_drop extreme count es) (fun _ => rfl) fun _ => rfl
  | success condition => exact counts_map (marks_success condition) (tallied_success condition) es
  | failure condition => exact counts_map (marks_failure condition) (tallied_failure condition) es
  | critical | criticalFailure | explode | reroll | unknown =>
    exact hid (fun _ => rfl) fun _ => rfl

theorem Counts.cons {es'' : List Entry} (h : Counts [m] es es') (h' : Counts ms es' es'') :
    Counts (m :: ms) es es'' := by
  obtain ⟨us, hus, hperm⟩ := h
  obtain ⟨vs, hvs, hperm'⟩ := h'
  obtain ⟨ws, hws, hperm''⟩ := List.perm_comp_forall₂ hperm hvs
  refine ⟨ws, forall₂_comp (fun e u w hu hw => ?_) hus hws, hperm''.trans hperm'⟩
  exact ⟨hu.1.trans hw.1, hu.2.cons hw.2⟩

theorem counts_through (ms : List (Modifier Number)) (es : List Entry) :
    Counts ms es (through ms es) := by
  induction ms generalizing es with
  | nil =>
    refine ⟨es, List.forall₂_same.mpr fun e _ => ?_, .refl es⟩
    exact ⟨.refl e, ⟨rfl, id, fun _ => rfl, fun _ => rfl⟩⟩
  | cons m ms ih =>
    rw [through_cons]
    exact (counts_apply m es).cons (ih _)

theorem shown_ofStatuses {ss : List Status} {e : Entry} (h : e ∈ Entry.ofStatuses ss) :
    e.shown = e.status.value := by
  obtain ⟨i, hi, rfl⟩ := List.mem_mapIdx.mp h
  rfl

theorem counted_through (ms : List (Modifier Number)) (ss : List Status) :
    List.Forall₂ (Status.Counted ms) ss (Entry.statuses (through ms (Entry.ofStatuses ss))) := by
  obtain ⟨us, hus, hperm⟩ := counts_through ms (Entry.ofStatuses ss)
  have hplaces := Entry.pairwise_place_of_forall₂ (hus.imp fun _ _ h => h.1)
    (Entry.pairwise_place_ofStatuses ss)
  have hstatuses : Entry.statuses (through ms (Entry.ofStatuses ss)) = us.map Entry.status := by
    rw [Entry.statuses, stableSort_eq_of_perm Entry.place hperm.symm hplaces]
  have hshown : List.Forall₂ (fun e u => e.shown = e.status.value ∧
      (e.Marks true u ∧ Tallied ms e u)) (Entry.ofStatuses ss) us :=
    (List.forall₂_and_left _ _).mpr ⟨fun _ => shown_ofStatuses, hus⟩
  rw [hstatuses]
  conv => arg 2; rw [← Entry.map_status_ofStatuses ss]
  refine List.forall₂_map_left_iff.mpr (List.forall₂_map_right_iff.mpr (hshown.imp fun e u h => ?_))
  obtain ⟨hvalue, hmark, htally⟩ := h
  have hsame : u.status.value = e.shown := hmark.status.value.trans hvalue.symm
  exact ⟨hmark.status.value, fun hvalid => hsame ▸ htally.successes hvalid,
    fun hvalid => hsame ▸ htally.failures hvalid⟩

end Through

section Totals

/-- What the entries that are valid in the end had counted before. -/
def brought (count : Status → Nat) : List Status → List Status → Nat
  | s :: ss, s' :: ss' => (if s'.valid then count s else 0) + brought count ss ss'
  | _, _ => 0

/-- The pairs of a valid entry and a modifier whose condition its value meets. -/
def hits (meets : Number → Modifier Number → Bool) (ms : List (Modifier Number))
    (ss : List Status) : Nat :=
  (ss.filter Status.valid ×ˢ ms).countP fun p => meets p.1.value p.2

theorem hits_cons (meets : Number → Modifier Number → Bool) (ms : List (Modifier Number))
    (s : Status) (ss : List Status) : hits meets ms (s :: ss) =
      (if s.valid then ms.countP (meets s.value) else 0) + hits meets ms ss := by
  cases hvalid : s.valid with
  | true =>
    rw [hits, List.filter_cons_of_pos hvalid, List.product_cons, List.countP_append,
      List.countP_map]
    rfl
  | false =>
    rw [hits, List.filter_cons_of_neg (by simp [hvalid])]
    simp [hits]

theorem totals_eq {ms : List (Modifier Number)} {ss ss' : List Status}
    (h : List.Forall₂ (Status.Counted ms) ss ss') :
    totals ss' = (brought Status.successes ss ss' + hits succeeds ms ss',
      brought Status.failures ss ss' + hits fails ms ss') := by
  induction h with
  | nil => rfl
  | @cons s s' ss ss' hs _ ih =>
    rw [totals, ih, hits_cons, hits_cons, brought, brought]
    cases hvalid : s'.valid with
    | true =>
      simp only [if_true, hs.successes hvalid, hs.failures hvalid, Prod.mk.injEq]
      omega
    | false => simp

end Totals

end Stage

end DiceNotation

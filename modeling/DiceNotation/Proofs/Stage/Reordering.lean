import DiceNotation.Proofs.Formula.Kinds
import DiceNotation.Proofs.Stage.Marking

/-! The order of stages. Keeping and dropping never look at what was counted, and counting leaves
alone what they look at; so all counting may wait until everything is kept or dropped, and only
throws that were dropped meanwhile tell the difference. -/

namespace DiceNotation

/-- A status without what the counting stages note in it. -/
def Status.uncounted (s : Status) : Status :=
  { s with successes := 0, failures := 0, success := none }

namespace Entry

def uncounted (e : Entry) : Entry :=
  e.mapStatus Status.uncounted

/-- Entries whose orders rise, as they do for throws and members in place. -/
def Rising (es : List Entry) : Prop :=
  es.Pairwise fun a b => a.status.order < b.status.order

theorem map_order_of_marks {c : Bool} {es es' : List Entry} (h : List.Forall₂ (Marks c) es es') :
    es'.map (fun e => e.status.order) = es.map fun e => e.status.order := by
  induction h with
  | nil => rfl
  | cons he _ ih => rw [List.map_cons, List.map_cons, he.status.order, ih]

theorem Rising.of_marks {c : Bool} {es es' : List Entry} (h : List.Forall₂ (Marks c) es es')
    (hes : Rising es) : Rising es' := by
  have horders := List.pairwise_map.mpr hes
  rw [← map_order_of_marks h] at horders
  exact List.pairwise_map.mp horders

end Entry

namespace Stage

/-- The stage of a modifier that a group knows. -/
def apply (m : Modifier Number) (es : List Entry) : List Entry :=
  match ofModifier? m with
  | some stage => stage es
  | none => es

def through (ms : List (Modifier Number)) (es : List Entry) : List Entry :=
  ms.foldl (fun es m => apply m es) es

@[simp] theorem through_nil (es : List Entry) : through [] es = es :=
  rfl

@[simp] theorem through_cons (m : Modifier Number) (ms : List (Modifier Number)) (es : List Entry) :
    through (m :: ms) es = through ms (apply m es) :=
  rfl

section InOrder

variable {c : Bool} {es : List Entry}

/-- What is put in order again after it was marked and moved is each entry in its place. -/
theorem forall₂_inOrder {moved : List Entry} (h : Entry.Moved c es (inOrder moved))
    (hes : Entry.Rising es) : List.Forall₂ (Entry.Marks c) es (inOrder moved) := by
  obtain ⟨us, hus, hperm⟩ := h
  have hmoved : moved.Perm us := (stableSort_perm _ moved).symm.trans hperm.symm
  have hsorted : inOrder moved = us :=
    stableSort_eq_of_perm (fun e : Entry => e.status.order) hmoved (hes.of_marks hus)
  rwa [hsorted]

theorem forall₂_apply (m : Modifier Number) (hes : Entry.Rising es) :
    List.Forall₂ (Entry.Marks m.isTarget) es (apply m es) := by
  cases m with
  | keep extreme count => exact forall₂_inOrder (moved_keep extreme count es) hes
  | drop extreme count => exact forall₂_inOrder (moved_drop extreme count es) hes
  | success condition =>
    exact List.forall₂_map_right_iff.mpr (List.forall₂_same.mpr fun e _ => marks_success condition e)
  | failure condition =>
    exact List.forall₂_map_right_iff.mpr (List.forall₂_same.mpr fun e _ => marks_failure condition e)
  | critical | criticalFailure | explode | reroll | unknown =>
    exact List.forall₂_same.mpr fun e _ => .refl e

theorem forall₂_through (ms : List (Modifier Number)) (hes : Entry.Rising es) :
    List.Forall₂ (Entry.Marks true) es (through ms es) := by
  induction ms generalizing es with
  | nil => exact List.forall₂_same.mpr fun e _ => .refl e
  | cons m ms ih =>
    have hstage : List.Forall₂ (Entry.Marks true) es (apply m es) :=
      (forall₂_apply m hes).imp fun _ _ h => ⟨h.place, h.shown, h.status.toCounting⟩
    exact Entry.forall₂_marks_trans hstage (ih (hes.of_marks hstage))

end InOrder

section Uncounted

theorem dropFirst_uncounted (n : Nat) (es : List Entry) :
    dropFirst n (es.map Entry.uncounted) = (dropFirst n es).map Entry.uncounted := by
  induction es generalizing n with
  | nil => rw [List.map_nil, dropFirst_nil, List.map_nil]
  | cons e es ih =>
    cases n with
    | zero => rfl
    | succ n =>
      have hvalid : e.uncounted.valid = e.valid := rfl
      by_cases h : e.valid
      · simp only [List.map_cons, dropFirst, hvalid, h, if_true, ih]
        rfl
      · simp only [List.map_cons, dropFirst, hvalid, h, Bool.false_eq_true, if_false, ih]

theorem stableSort_uncounted {before : Entry → Entry → Bool}
    (h : ∀ a b : Entry, before a.uncounted b.uncounted = before a b) (es : List Entry) :
    stableSort before (es.map Entry.uncounted) = (stableSort before es).map Entry.uncounted :=
  stableSort_map Entry.uncounted h es

theorem keep_uncounted (extreme : Extreme) (count : Number) (es : List Entry) :
    keep extreme count (es.map Entry.uncounted) = (keep extreme count es).map Entry.uncounted := by
  have hvalid : (es.map Entry.uncounted).countP Entry.valid = es.countP Entry.valid :=
    List.countP_map
  have rest (n : Nat) (sorted : List Entry) :
      inOrder (dropFirst n (invalidFirst (sorted.map Entry.uncounted))) =
        (inOrder (dropFirst n (invalidFirst sorted))).map Entry.uncounted := by
    rw [invalidFirst, stableSort_uncounted fun _ _ => rfl, dropFirst_uncounted]
    exact stableSort_uncounted (fun _ _ => rfl) _
  cases extreme <;>
  · simp only [keep, hvalid, List.length_map, sortUp, sortDown]
    rw [stableSort_uncounted fun _ _ => rfl, rest]

theorem drop_uncounted (extreme : Extreme) (count : Number) (es : List Entry) :
    drop extreme count (es.map Entry.uncounted) = (drop extreme count es).map Entry.uncounted := by
  have rest (n : Nat) (sorted : List Entry) :
      inOrder (dropFirst n (sorted.map Entry.uncounted)) =
        (inOrder (dropFirst n sorted)).map Entry.uncounted := by
    rw [dropFirst_uncounted]
    exact stableSort_uncounted (fun _ _ => rfl) _
  cases extreme <;>
  · simp only [drop, List.length_map, sortUp, sortDown]
    rw [stableSort_uncounted fun _ _ => rfl, rest]

theorem apply_uncounted {m : Modifier Number} (h : m.isTarget = false) (es : List Entry) :
    apply m (es.map Entry.uncounted) = (apply m es).map Entry.uncounted := by
  cases m with
  | keep extreme count => exact keep_uncounted extreme count es
  | drop extreme count => exact drop_uncounted extreme count es
  | success | failure => cases h
  | critical | criticalFailure | explode | reroll | unknown => rfl

theorem map_uncounted_apply {m : Modifier Number} (h : m.isTarget = true) (es : List Entry) :
    (apply m es).map Entry.uncounted = es.map Entry.uncounted := by
  have counted {f : Entry → Entry} (hf : ∀ e : Entry, (f e).uncounted = e.uncounted) :
      (es.map f).map Entry.uncounted = es.map Entry.uncounted := by
    rw [List.map_map]
    exact List.map_congr_left fun e _ => hf e
  cases m with
  | success condition =>
    refine counted fun e => ?_
    unfold success
    split <;> rfl
  | failure condition =>
    refine counted fun e => ?_
    unfold failure
    split <;> rfl
  | keep | drop | critical | criticalFailure | explode | reroll | unknown => cases h

/-- But for what they count, stages do what the keeping and dropping ones among them do. -/
theorem map_uncounted_through (ms : List (Modifier Number)) (es : List Entry) :
    (through ms es).map Entry.uncounted =
      through (ms.filter fun m => !m.isTarget) (es.map Entry.uncounted) := by
  induction ms generalizing es with
  | nil => rfl
  | cons m ms ih =>
    rw [through_cons, ih]
    cases h : m.isTarget with
    | true => rw [map_uncounted_apply h, List.filter_cons_of_neg (by simp [h])]
    | false =>
      rw [← apply_uncounted h, List.filter_cons_of_pos (by simp [h]), through_cons]

end Uncounted

section Tally

/-- Whether the modifier counts a success for an entry that shows the number. -/
def succeeds (x : Number) : Modifier Number → Bool
  | .success t => t.accepts x
  | _ => false

def fails (x : Number) : Modifier Number → Bool
  | .failure t => t.accepts x
  | _ => false

/-- An entry after stages that counted for it all that it meets, unless it was dropped. -/
structure Tallied (ms : List (Modifier Number)) (e e' : Entry) : Prop where
  shown : e'.shown = e.shown
  valid : e'.valid = true → e.valid = true
  successes : e'.valid = true →
    e'.status.successes = e.status.successes + ms.countP (succeeds e.shown)
  failures : e'.valid = true →
    e'.status.failures = e.status.failures + ms.countP (fails e.shown)

theorem Tallied.cons {m : Modifier Number} {ms : List (Modifier Number)} {e e' e'' : Entry}
    (h : Tallied [m] e e') (h' : Tallied ms e' e'') : Tallied (m :: ms) e e'' where
  shown := h'.shown.trans h.shown
  valid hv := h.valid (h'.valid hv)
  successes hv := by
    rw [h'.successes hv, h.successes (h'.valid hv), h.shown]
    simp only [List.countP_cons, List.countP_nil]
    omega
  failures hv := by
    rw [h'.failures hv, h.failures (h'.valid hv), h.shown]
    simp only [List.countP_cons, List.countP_nil]
    omega

theorem Tallied.of_marks {m : Modifier Number} {e e' : Entry} (h : e.Marks false e')
    (hs : succeeds e.shown m = false) (hf : fails e.shown m = false) : Tallied [m] e e' := by
  obtain ⟨hsuccesses, hfailures, -⟩ := h.status.tally rfl
  refine ⟨h.shown, fun hv => ?_, fun _ => by simp [hs, hsuccesses],
    fun _ => by simp [hf, hfailures]⟩
  rcases h.status.standing with ⟨hvalid, -⟩ | ⟨hvalid, -, -⟩
  · exact hvalid.symm.trans hv
  · exact hvalid

theorem tallied_success (condition : Target Number) (e : Entry) :
    Tallied [.success condition] e (success condition e) := by
  unfold success
  split
  · rename_i h
    obtain ⟨hvalid, haccepts⟩ := Bool.and_eq_true_iff.mp h
    exact ⟨rfl, fun _ => hvalid, fun _ => by simp [Entry.mapStatus, succeeds, haccepts],
      fun _ => by simp [Entry.mapStatus, fails]⟩
  · rename_i h
    refine ⟨rfl, id, fun hvalid => ?_, fun _ => by simp [fails]⟩
    have haccepts : condition.accepts e.shown = false := by simpa [hvalid] using h
    simp [succeeds, haccepts]

theorem tallied_failure (condition : Target Number) (e : Entry) :
    Tallied [.failure condition] e (failure condition e) := by
  unfold failure
  split
  · rename_i h
    obtain ⟨hvalid, haccepts⟩ := Bool.and_eq_true_iff.mp h
    exact ⟨rfl, fun _ => hvalid, fun _ => by simp [Entry.mapStatus, succeeds],
      fun _ => by simp [Entry.mapStatus, fails, haccepts]⟩
  · rename_i h
    refine ⟨rfl, id, fun _ => by simp [succeeds], fun hvalid => ?_⟩
    have haccepts : condition.accepts e.shown = false := by simpa [hvalid] using h
    simp [fails, haccepts]

theorem forall₂_tallied_apply (m : Modifier Number) {es : List Entry} (hes : Entry.Rising es) :
    List.Forall₂ (Tallied [m]) es (apply m es) := by
  cases m with
  | keep | drop =>
    exact (forall₂_apply _ hes).imp fun _ _ h => .of_marks h rfl rfl
  | success condition =>
    exact List.forall₂_map_right_iff.mpr (List.forall₂_same.mpr fun e _ => tallied_success condition e)
  | failure condition =>
    exact List.forall₂_map_right_iff.mpr (List.forall₂_same.mpr fun e _ => tallied_failure condition e)
  | critical | criticalFailure | explode | reroll | unknown =>
    exact List.forall₂_same.mpr fun e _ => .of_marks (.refl e) rfl rfl

/-- Stages count for each entry that is left what it meets, whatever their order. -/
theorem forall₂_tallied_through (ms : List (Modifier Number)) {es : List Entry}
    (hes : Entry.Rising es) : List.Forall₂ (Tallied ms) es (through ms es) := by
  induction ms generalizing es with
  | nil => exact List.forall₂_same.mpr fun e _ => ⟨rfl, id, fun _ => rfl, fun _ => rfl⟩
  | cons m ms ih =>
    rw [through_cons]
    exact forall₂_comp (fun _ _ _ h h' => h.cons h') (forall₂_tallied_apply m hes)
      (ih (hes.of_marks (forall₂_apply m hes)))

end Tally

section Counts

/-- Statuses that differ in no more than in what was counted before they were dropped. -/
structure Agrees (s s' : Status) : Prop where
  standing : (s.valid, s.dropped) = (s'.valid, s'.dropped)
  tally : s.valid = true → (s.successes, s.failures) = (s'.successes, s'.failures)

/-- All counting after all keeping and dropping. -/
def countLast {α : Type} (ms : List (Modifier α)) : List (Modifier α) :=
  (ms.filter fun m => !m.isTarget) ++ ms.filter Modifier.isTarget

theorem countLast_perm {α : Type} (ms : List (Modifier α)) : (countLast ms).Perm ms := by
  have hperm := List.filter_append_perm (fun m : Modifier α => !m.isTarget) ms
  simp only [Bool.not_not] at hperm
  exact hperm

theorem countLast_map {α β : Type} (f : α → β) (ms : List (Modifier α)) :
    countLast (ms.map (Modifier.map f)) = (countLast ms).map (Modifier.map f) := by
  simp only [countLast, List.filter_map, List.map_append, Function.comp_def, Modifier.isTarget_map]

theorem countLast_eq_self {α : Type} {ms : List (Modifier α)} (h : ms.any Modifier.isTarget = false) :
    countLast ms = ms := by
  have hnone : ∀ m ∈ ms, m.isTarget = false := by simpa using h
  rw [countLast, List.filter_eq_self.mpr fun m hm => by rw [hnone m hm]; rfl,
    List.filter_eq_nil_iff.mpr fun m hm => by simp [hnone m hm], List.append_nil]

theorem filter_countLast {α : Type} (ms : List (Modifier α)) :
    (countLast ms).filter (fun m => !m.isTarget) = ms.filter fun m => !m.isTarget := by
  simp [countLast, List.filter_append, List.filter_filter]

/-- The stages of a group may count last. -/
theorem forall₂_agrees_countLast (ms : List (Modifier Number)) {es : List Entry}
    (hes : Entry.Rising es) :
    List.Forall₂ (fun e e' : Entry => Agrees e.status e'.status) (through ms es)
      (through (countLast ms) es) := by
  have hsame : (through ms es).map Entry.uncounted =
      (through (countLast ms) es).map Entry.uncounted := by
    rw [map_uncounted_through, map_uncounted_through, filter_countLast]
  have huncounted : List.Forall₂ (fun e e' : Entry => e.uncounted = e'.uncounted) (through ms es)
      (through (countLast ms) es) := by
    have heq := List.forall₂_eq_eq_eq.symm ▸ hsame
    exact List.forall₂_map_left_iff.mp (List.forall₂_map_right_iff.mp heq)
  have htallied : List.Forall₂ (fun e e' : Entry =>
      ∃ start, Tallied ms start e ∧ Tallied (countLast ms) start e') (through ms es)
      (through (countLast ms) es) :=
    forall₂_comp (R := flip (Tallied ms)) (fun e start e' h h' => ⟨start, h, h'⟩)
      (forall₂_tallied_through ms hes).flip (forall₂_tallied_through (countLast ms) hes)
  refine (forall₂_and huncounted htallied).imp fun e e' hboth => ?_
  obtain ⟨heq, start, h, h'⟩ := hboth
  have hstanding : (e.status.valid, e.status.dropped) = (e'.status.valid, e'.status.dropped) := by
    show (e.uncounted.status.valid, e.uncounted.status.dropped) = _
    rw [heq]
    rfl
  refine ⟨hstanding, fun hvalid => ?_⟩
  have hvalid' : e'.valid = true := (congrArg Prod.fst hstanding).symm.trans hvalid
  have hperm := countLast_perm ms
  rw [h.successes hvalid, h.failures hvalid, h'.successes hvalid', h'.failures hvalid',
    hperm.countP_eq, hperm.countP_eq]

theorem totals_of_agrees {ss ss' : List Status} (h : List.Forall₂ Agrees ss ss') :
    totals ss = totals ss' := by
  induction h with
  | nil => rfl
  | @cons s s' ss ss' hs _ ih =>
    obtain ⟨hvalid, -⟩ := Prod.mk.injEq .. ▸ hs.standing
    rw [totals, totals, ih, ← hvalid]
    by_cases h : s.valid = true
    · obtain ⟨hsuccesses, hfailures⟩ := Prod.mk.injEq .. ▸ hs.tally h
      simp only [h, if_true, hsuccesses, hfailures]
    · simp only [h, Bool.false_eq_true, if_false]

end Counts

end Stage

end DiceNotation

import DiceNotation.Proofs.Stage.Reordering
import DiceNotation.Proofs.Stage.Throwing

/-! Throws with new statuses. A stage on the throws of a die works on their entries and puts the
statuses back, so the throws after many stages are the first ones with the last statuses. -/

namespace DiceNotation

namespace Throw

def restamp (ts : List Throw) (ss : List Status) : List Throw :=
  List.zipWith (fun t s => { t with status := s }) ts ss

/-- The face of a throw, and what has happened to it. -/
def flags (t : Throw) : Int64 × Bool × Bool × Bool × Bool :=
  (t.face, t.valid, t.status.dropped, t.rerolled, t.exploded)

variable {ts : List Throw} {ss ss' : List Status}

theorem refill_eq_restamp (h : ts.length = ss.length) : refill ts ss = (restamp ts ss, []) := by
  induction ts generalizing ss with
  | nil =>
    obtain rfl := List.length_eq_zero_iff.mp h.symm
    rfl
  | cons t ts ih =>
    cases ss with
    | nil => simp at h
    | cons s ss =>
      rw [refill, ih (Nat.succ.inj h)]
      rfl

@[simp] theorem length_restamp (h : ts.length = ss.length) : (restamp ts ss).length = ts.length := by
  simp [restamp, h]

theorem map_status_restamp (h : ts.length = ss.length) : (restamp ts ss).map status = ss := by
  induction ts generalizing ss with
  | nil =>
    obtain rfl := List.length_eq_zero_iff.mp h.symm
    rfl
  | cons t ts ih =>
    cases ss with
    | nil => simp at h
    | cons s ss => exact congrArg (s :: ·) (ih (Nat.succ.inj h))

theorem restamp_self (ts : List Throw) : restamp ts (ts.map status) = ts := by
  induction ts with
  | nil => rfl
  | cons t ts ih => exact congrArg (t :: ·) ih

theorem restamp_restamp (h : ts.length = ss.length) :
    restamp (restamp ts ss) ss' = restamp ts ss' := by
  induction ts generalizing ss ss' with
  | nil => rfl
  | cons t ts ih =>
    cases ss with
    | nil => simp at h
    | cons s ss =>
      cases ss' with
      | nil => rfl
      | cons s' ss' => exact congrArg ({ t with status := s' } :: ·) (ih (Nat.succ.inj h))

/-- New statuses leave the faces, and bring no more to the flags than whether they are valid. -/
theorem map_flags_restamp (ts : List Throw) (ss : List Status) :
    (restamp ts ss).map flags = List.zipWith
      (fun t standing => (t.face, standing.1, standing.2, t.rerolled, t.exploded)) ts
      (ss.map fun s => (s.valid, s.dropped)) := by
  rw [restamp, List.map_zipWith, List.zipWith_map_right]
  rfl

end Throw

namespace Stage

variable {ts : List Throw} {c : Bool}

theorem map_order_ofThrows (ts : List Throw) :
    (Entry.ofThrows ts).map (fun e => e.status.order) = ts.map fun t => t.status.order :=
  calc (Entry.ofThrows ts).map (fun e => e.status.order)
      = ((Entry.ofThrows ts).map Entry.status).map Status.order := by rw [List.map_map]; rfl
    _ = (ts.map Throw.status).map Status.order := by rw [Entry.map_status_ofThrows]
    _ = ts.map (fun t => t.status.order) := by rw [List.map_map]; rfl

theorem rising_ofThrows (hts : InLine ts) : Entry.Rising (Entry.ofThrows ts) := by
  rw [Entry.Rising, ← List.pairwise_map, map_order_ofThrows, hts]
  exact List.pairwise_lt_range

theorem ofThrows_restamp {es : List Entry} (h : List.Forall₂ (Entry.Marks c) (Entry.ofThrows ts) es) :
    Entry.ofThrows (Throw.restamp ts (es.map Entry.status)) = es := by
  have hlength : es.length = ts.length := by simpa [Entry.ofThrows] using h.length_eq.symm
  apply List.ext_getElem
  · simp [Entry.ofThrows, Throw.restamp, hlength]
  · intro i hi hi'
    have hmark := (List.forall₂_iff_get.mp h).2 i (by simpa [Entry.ofThrows, ← hlength] using hi') hi'
    have hplace : es[i].place = i := by simpa [Entry.ofThrows] using hmark.place
    have hbound : i < ts.length := hlength ▸ hi'
    have hshown : es[i].shown = .int ts[i].face := by
      simpa [Entry.ofThrows] using hmark.shown
    simp only [Entry.ofThrows, Throw.restamp, List.getElem_mapIdx, List.getElem_zipWith,
      List.getElem_map, ← hshown]
    generalize es[i] = e at hplace
    obtain ⟨place, shown, status⟩ := e
    obtain rfl : place = i := hplace
    rfl

theorem statuses_eq_map {es : List Entry} (h : List.Forall₂ (Entry.Marks c) (Entry.ofThrows ts) es) :
    Entry.statuses es = es.map Entry.status := by
  have hplaces := Entry.pairwise_place_of_forall₂ h (Entry.pairwise_place_ofThrows ts)
  rw [Entry.statuses, stableSort_eq_of_perm Entry.place (.refl es) hplaces]

theorem length_of_marks {es : List Entry} (h : List.Forall₂ (Entry.Marks c) (Entry.ofThrows ts) es) :
    ts.length = (es.map Entry.status).length := by
  rw [List.length_map, ← h.length_eq]
  simp [Entry.ofThrows]

theorem inLine_restamp {es : List Entry} (hts : InLine ts)
    (h : List.Forall₂ (Entry.Marks c) (Entry.ofThrows ts) es) :
    InLine (Throw.restamp ts (es.map Entry.status)) := by
  have hlength := length_of_marks h
  rw [InLine, ← map_order_ofThrows, ofThrows_restamp h, Entry.map_order_of_marks h,
    map_order_ofThrows, hts, Throw.length_restamp hlength]

theorem ofStatuses_map_status {ts : List Throw} (h : ∀ t ∈ ts, t.value = .int t.face) :
    Entry.ofStatuses (ts.map Throw.status) = Entry.ofThrows ts := by
  apply List.ext_getElem
  · simp [Entry.ofStatuses, Entry.ofThrows]
  · intro i hi hi'
    have hlength : i < ts.length := by simpa [Entry.ofThrows] using hi'
    have hvalue : ts[i].status.value = .int ts[i].face := h _ (List.getElem_mem hlength)
    simp [Entry.ofStatuses, Entry.ofThrows, hvalue]

/-- A stage on throws gives them the statuses that it gives their entries. -/
theorem onThrows_eq_restamp {m : Modifier Number} {stage : List Entry → List Entry}
    (h : ofModifier? m = some stage) (hts : InLine ts) :
    onThrows stage ts = Throw.restamp ts ((apply m (Entry.ofThrows ts)).map Entry.status) := by
  have hmarks := forall₂_apply m (rising_ofThrows hts)
  have hstage : stage (Entry.ofThrows ts) = apply m (Entry.ofThrows ts) := by rw [apply, h]
  rw [onThrows, hstage, statuses_eq_map hmarks, Throw.refill_eq_restamp (length_of_marks hmarks)]

end Stage

end DiceNotation

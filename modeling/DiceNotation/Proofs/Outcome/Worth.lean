import DiceNotation.Proofs.Outcome.Lawful
import DiceNotation.Proofs.Stage.Restamping

/-! What a die is worth, throw by throw. Targets drop nothing, so a valid throw has counted each of
them that its face meets and one that is not valid has counted none; the ends of a die change neither,
and everything else that the die says is read off its throws. -/

namespace DiceNotation

open Stage

theorem forall_mem_of_forall₂ {α β : Type} {R : α → β → Prop} {P : α → Prop} {Q : β → Prop}
    (hQ : ∀ a b, R a b → P a → Q b) {as : List α} {bs : List β} (h : List.Forall₂ R as bs)
    (has : ∀ a ∈ as, P a) : ∀ b ∈ bs, Q b := by
  induction h with
  | nil => simp
  | cons hab _ ih =>
    obtain ⟨ha, has⟩ := List.forall_mem_cons.mp has
    exact List.forall_mem_cons.mpr ⟨hQ _ _ hab ha, ih has⟩

section Targets

variable {m : Modifier Number} {ms : List (Modifier Number)}

/-- An entry after targets: it stands as it stood, and it counts nothing if it is not valid. -/
structure Entry.Targeted (ms : List (Modifier Number)) (e e' : Entry) : Prop extends
    Tallied ms e e' where
  stands : e'.valid = e.valid
  idle : e.valid = false → e' = e

theorem Entry.Targeted.cons {e e' e'' : Entry} (h : e.Targeted [m] e') (h' : e'.Targeted ms e'') :
    e.Targeted (m :: ms) e'' where
  toTallied := h.toTallied.cons h'.toTallied
  stands := h'.stands.trans h.stands
  idle he := by rw [h'.idle (h.stands.trans he), h.idle he]

namespace Stage

open Entry (Targeted)

theorem targeted_success (condition : Target Number) (e : Entry) :
    e.Targeted [.success condition] (success condition e) := by
  refine ⟨tallied_success condition e, ?_, fun he => by simp [success, he]⟩
  unfold success
  split <;> rfl

theorem targeted_failure (condition : Target Number) (e : Entry) :
    e.Targeted [.failure condition] (failure condition e) := by
  refine ⟨tallied_failure condition e, ?_, fun he => by simp [failure, he]⟩
  unfold failure
  split <;> rfl

theorem forall₂_targeted_apply (h : m.isTarget = true) (es : List Entry) :
    List.Forall₂ (Targeted [m]) es (apply m es) := by
  cases m with
  | success condition =>
    exact List.forall₂_map_right_iff.mpr (List.forall₂_same.mpr fun e _ => targeted_success condition e)
  | failure condition =>
    exact List.forall₂_map_right_iff.mpr (List.forall₂_same.mpr fun e _ => targeted_failure condition e)
  | keep | drop | critical | criticalFailure | explode | reroll | unknown => cases h

theorem forall₂_targeted_through (h : ∀ m ∈ ms, m.isTarget = true) (es : List Entry) :
    List.Forall₂ (Targeted ms) es (through ms es) := by
  induction ms generalizing es with
  | nil =>
    refine List.forall₂_same.mpr fun e _ => ⟨⟨rfl, id, fun _ => rfl, fun _ => rfl⟩, rfl, fun _ => rfl⟩
  | cons m ms ih =>
    obtain ⟨hm, hms⟩ := List.forall_mem_cons.mp h
    rw [through_cons]
    exact forall₂_comp (fun _ _ _ h h' => h.cons h') (forall₂_targeted_apply hm es)
      (ih hms _)

end Stage

/-- A status that has counted the targets that a number meets, or nothing if it is not valid. -/
structure Status.Counts (ms : List (Modifier Number)) (shown : Number) (s : Status) : Prop where
  successes : s.successes = if s.valid then ms.countP (succeeds shown) else 0
  failures : s.failures = if s.valid then ms.countP (fails shown) else 0

/-- A status that has counted nothing yet. -/
def Status.Uncounted (s : Status) : Prop :=
  s.successes = 0 ∧ s.failures = 0

theorem Entry.counts_of_targeted {e e' : Entry} (h : e.Targeted ms e') (he : e.status.Uncounted) :
    e'.status.Counts ms e'.shown := by
  obtain ⟨hsuccesses, hfailures⟩ := he
  cases hvalid : e.valid with
  | true =>
    have hvalid' : e'.status.valid = true := h.stands.trans hvalid
    refine ⟨?_, ?_⟩
    · rw [h.successes hvalid', hsuccesses, hvalid', h.shown, Nat.zero_add, if_pos rfl]
    · rw [h.failures hvalid', hfailures, hvalid', h.shown, Nat.zero_add, if_pos rfl]
  | false =>
    have hidle : e.status.valid = false := hvalid
    rw [h.idle hvalid]
    exact ⟨by rw [hidle, hsuccesses]; rfl, by rw [hidle, hfailures]; rfl⟩

namespace Throw

variable {ts : List Throw}

theorem invariant_uncounted (hm : m.isTarget = false) : Invariant m fun t => t.status.Uncounted where
  step t u h ht := by
    cases h with
    | place | tag | explode | compound | penetrate | reroll => exact ht
    | mark h =>
      obtain ⟨hsuccesses, hfailures, -⟩ := h.tally hm
      exact ⟨hsuccesses.trans ht.1, hfailures.trans ht.2⟩
  fresh _ _ _ := ⟨rfl, rfl⟩

/-- A throw that has counted the targets that its face meets. -/
def Counts (ms : List (Modifier Number)) (t : Throw) : Prop :=
  t.status.Counts ms (.int t.face)

theorem forall_ofThrows {P : Number → Status → Prop} :
    (∀ e ∈ Entry.ofThrows ts, P e.shown e.status) ↔ ∀ t ∈ ts, P (.int t.face) t.status := by
  constructor
  · intro h t ht
    obtain ⟨i, hi, rfl⟩ := List.getElem_of_mem ht
    exact h _ (List.mem_mapIdx.mpr ⟨i, hi, rfl⟩)
  · intro h e he
    obtain ⟨i, hi, rfl⟩ := List.mem_mapIdx.mp he
    exact h _ (List.getElem_mem hi)

/-- Throws that go through targets count them. -/
theorem counts_restamp (hms : ∀ m ∈ ms, m.isTarget = true) (hline : InLine ts)
    (hts : ∀ t ∈ ts, t.status.Uncounted) :
    ∀ u ∈ restamp ts ((through ms (Entry.ofThrows ts)).map Entry.status), u.Counts ms := by
  have hmarks := forall₂_through ms (rising_ofThrows hline)
  have hstart : ∀ e ∈ Entry.ofThrows ts, e.status.Uncounted :=
    forall_ofThrows (P := fun _ s => s.Uncounted).mpr hts
  have hend := forall_mem_of_forall₂ (Q := fun e => e.status.Counts ms e.shown)
    (fun _ _ => Entry.counts_of_targeted) (forall₂_targeted_through hms (Entry.ofThrows ts)) hstart
  rw [← ofThrows_restamp hmarks] at hend
  exact forall_ofThrows.mp hend

theorem forall_restamp {P : Throw → Prop} (hP : ∀ t s, P t → P { t with status := s })
    (hts : ∀ t ∈ ts, P t) (ss : List Status) : ∀ u ∈ restamp ts ss, P u := by
  induction ts generalizing ss with
  | nil => simp [restamp]
  | cons t ts ih =>
    obtain ⟨ht, hts⟩ := List.forall_mem_cons.mp hts
    cases ss with
    | nil => simp [restamp]
    | cons s ss => exact List.forall_mem_cons.mpr ⟨hP t s ht, ih hts ss⟩

/-- A throw that was scored is a success if it is worth more than nothing. -/
theorem success_score (t : Throw) :
    (score t).status.success = some (Number.zero.less (score t).value) := by
  obtain ⟨value, success, hsuccess, heq⟩ : ∃ value success,
      success = some (Number.zero.less value) ∧
        score t = { t with status := { t.status with value := value, success := success } } :=
    ⟨_, _, rfl, rfl⟩
  rw [heq]
  exact hsuccess

end Throw

end Targets

section Matches

variable {ts us : List Throw}

theorem validFaces_of_perm (h : (ts.map fun t => (t.valid, t.face)).Perm
    (us.map fun t => (t.valid, t.face))) : (validFaces ts).Perm (validFaces us) := by
  have hfaces := (h.filter Prod.fst).map Prod.snd
  simp only [List.filter_map, List.map_map] at hfaces
  exact hfaces

/-- Which faces are matched hangs on how often they are shown, and on nothing else. -/
theorem isMatched_of_perm (m : Matching Number) (h : (validFaces ts).Perm (validFaces us)) :
    isMatched m ts = isMatched m us := by
  funext face
  rw [isMatched, isMatched, h.count_eq]

theorem map_face_markedThrows (matching : Option (Matching Number)) (ts : List Throw) :
    (Outcome.markedThrows matching ts).map (fun t => (t.valid, t.face)) =
      ts.map fun t => (t.valid, t.face) := by
  cases matching with
  | none => rfl
  | some m =>
    rw [Outcome.markedThrows, withMatches, List.map_map]
    refine List.map_congr_left fun t _ => ?_
    rw [Function.comp_apply]
    split <;> rfl

/-- Throws are matched that are valid and show a face which enough of them show. -/
theorem matched_markedThrows (matching : Option (Matching Number))
    (h : ∀ t ∈ ts, t.matched = false) : ∀ t ∈ Outcome.markedThrows matching ts,
      t.matched = matching.any fun m => t.valid && isMatched m ts t.face := by
  cases matching with
  | none => exact h
  | some m =>
    refine List.forall_mem_map.mpr fun t ht => ?_
    split
    · rename_i hmatch
      exact hmatch.symm
    · rename_i hmatch
      rw [h t ht]
      exact (Bool.eq_false_iff.mpr hmatch).symm

theorem matched_sortedThrows (matching : Option (Matching Number)) (sorting : Option Sorting)
    (h : ∀ t ∈ ts, t.matched = false) :
    ∀ t ∈ Outcome.sortedThrows sorting (Outcome.markedThrows matching ts), t.matched =
      matching.any fun m => t.valid &&
        isMatched m (Outcome.sortedThrows sorting (Outcome.markedThrows matching ts)) t.face := by
  have hfaces := Outcome.map_sortedThrows_perm (w := fun t => (t.valid, t.face)) (fun _ _ => rfl)
    sorting (Outcome.markedThrows matching ts)
  rw [map_face_markedThrows] at hfaces
  have hsame (m : Matching Number) := isMatched_of_perm m (validFaces_of_perm hfaces)
  simp only [hsame]
  exact Outcome.forall_sortedThrows (P := fun t => t.matched =
    matching.any fun m => t.valid && isMatched m ts t.face) (fun _ _ ht => ht)
    (matched_markedThrows matching h)

end Matches

namespace Outcome

/-- What a die is worth after its targets and its matching. -/
structure Worth (targets : List (Modifier Number)) (matching : Option (Matching Number))
    (o : Outcome) : Prop where
  throws : targets ≠ [] → ∀ t ∈ o.throws,
    t.Counts targets ∧ t.Scored ∧ t.status.success = some (Number.zero.less t.value)
  matched : ∀ t ∈ o.throws,
    t.matched = matching.any fun m => t.valid && isMatched m o.throws t.face
  successes : o.status.successes =
    if targets = [] then 0 else ((o.throws.filter Throw.valid).map (·.status.successes)).sum
  failures : o.status.failures =
    if targets = [] then 0 else ((o.throws.filter Throw.valid).map (·.status.failures)).sum
  value : o.value = if matching.any Matching.counted then .ofNat (matchedFaces o.throws).length
    else if targets = [] then Throw.total o.throws else o.status.score
  success : o.status.success = if targets = [] then none else some (Number.zero.less o.value)

theorem Worth.relabel {targets : List (Modifier Number)} {matching : Option (Matching Number)}
    {o : Outcome} (h : o.Worth targets matching) (label : Option String) :
    (o.relabel label).Worth targets matching where
  throws := by simpa only [throws_relabel] using h.throws
  matched := by simpa only [throws_relabel] using h.matched
  successes := by simpa only [status_relabel, throws_relabel] using h.successes
  failures := by simpa only [status_relabel, throws_relabel] using h.failures
  value := by simpa only [Outcome.value, status_relabel, throws_relabel] using h.value
  success := by simpa only [Outcome.value, status_relabel] using h.success

variable {count : Outcome} {faces : Option Outcome} {matching : Option (Matching Number)}
  {sorting : Option Sorting} {ts : List Throw} {targets : List (Modifier Number)}

/-- A score leaves what was counted and what the throw shows. -/
theorem counts_throws_ofDie (h : ∀ t ∈ ts, t.Counts targets) (hasTargets : Bool) :
    ∀ t ∈ (ofDie count faces hasTargets matching sorting ts).throws, t.Counts targets :=
  forall_throws_ofDie (fun _ _ _ ht => ⟨ht.successes, ht.failures⟩)
    (fun _ ht => ⟨ht.successes, ht.failures⟩) (fun _ _ ht => ⟨ht.successes, ht.failures⟩) h

theorem success_throws_ofDie : ∀ t ∈ (ofDie count faces true matching sorting ts).throws,
    t.status.success = some (Number.zero.less t.value) := by
  have hscored : ∀ t ∈ scoredThrows true ts, t.status.success = some (Number.zero.less t.value) :=
    List.forall_mem_map.mpr fun t _ => Throw.success_score t
  exact forall_sortedThrows (fun _ _ ht => ht) (forall_markedThrows (fun _ ht => ht) hscored)

theorem matched_throws_ofDie (h : ∀ t ∈ ts, t.matched = false) (hasTargets : Bool) :
    ∀ t ∈ (ofDie count faces hasTargets matching sorting ts).throws, t.matched = matching.any
      fun m => t.valid &&
        isMatched m (ofDie count faces hasTargets matching sorting ts).throws t.face :=
  matched_sortedThrows matching sorting (forall_scoredThrows (fun _ _ _ ht => ht) h)

/-- The counts of a die with targets are those of its valid throws. -/
theorem counts_ofDie_of_targets {o : Outcome} (h : o = ofDie count faces true matching sorting ts) :
    o.status.successes = ((o.throws.filter Throw.valid).map (·.status.successes)).sum ∧
      o.status.failures = ((o.throws.filter Throw.valid).map (·.status.failures)).sum := by
  have hcounts : (o.status.successes, o.status.failures) = totals (o.throws.map Throw.status) := by
    rw [h, throws_ofDie, totals_sortedThrows, status_ofDie_of_targets]
    rfl
  simp only [totals_eq_sum, List.filter_map, List.map_map] at hcounts
  exact Prod.mk.inj hcounts

theorem value_ofDie_of_counted (hmatched : ∀ t ∈ ts, t.matched = false) (hasTargets : Bool)
    (hcounted : matching.any Matching.counted = true) :
    (ofDie count faces hasTargets matching sorting ts).value =
      .ofNat (matchedFaces (ofDie count faces hasTargets matching sorting ts).throws).length := by
  have hlawful : (ofDie count faces hasTargets matching sorting ts).Lawful _ hasTargets :=
    lawful_ofDie hmatched
  rwa [hcounted] at hlawful

theorem worth_of_no_targets (hmatched : ∀ t ∈ ts, t.matched = false) :
    (ofDie count faces false matching sorting ts).Worth [] matching where
  throws h := absurd rfl h
  matched := matched_throws_ofDie hmatched false
  successes := by rw [if_pos rfl, status_ofDie_of_no_targets]; rfl
  failures := by rw [if_pos rfl, status_ofDie_of_no_targets]; rfl
  success := by rw [if_pos rfl, status_ofDie_of_no_targets]; rfl
  value := by
    have hlawful : (ofDie count faces false matching sorting ts).Lawful _ false :=
      lawful_ofDie hmatched
    cases hcounted : matching.any Matching.counted with
    | true => rw [if_pos rfl, value_ofDie_of_counted hmatched false hcounted]
    | false =>
      rw [hcounted] at hlawful
      rw [if_neg Bool.false_ne_true, if_pos rfl]
      exact hlawful

theorem worth_of_targets (hne : targets ≠ []) (hmatched : ∀ t ∈ ts, t.matched = false)
    (hcounts : ∀ t ∈ ts, t.Counts targets) :
    (ofDie count faces true matching sorting ts).Worth targets matching where
  throws _ t ht := ⟨counts_throws_ofDie hcounts true t ht, scored_throws_ofDie t ht,
    success_throws_ofDie t ht⟩
  matched := matched_throws_ofDie hmatched true
  successes := by rw [if_neg hne, (counts_ofDie_of_targets rfl).1]
  failures := by rw [if_neg hne, (counts_ofDie_of_targets rfl).2]
  success := by rw [if_neg hne, value, status_ofDie_of_targets]; rfl
  value := by
    have hlawful : (ofDie count faces true matching sorting ts).Lawful _ true :=
      lawful_ofDie hmatched
    cases hcounted : matching.any Matching.counted with
    | true => rw [if_pos rfl, value_ofDie_of_counted hmatched true hcounted]
    | false =>
      rw [hcounted] at hlawful
      rw [if_neg Bool.false_ne_true, if_neg hne]
      exact hlawful.2.1

theorem worth_ofDie (hmatched : ∀ t ∈ ts, t.matched = false) (hcounts : ∀ t ∈ ts, t.Counts targets) :
    (ofDie count faces (!targets.isEmpty) matching sorting ts).Worth targets matching := by
  cases targets with
  | nil => exact worth_of_no_targets hmatched
  | cons m ms => exact worth_of_targets (List.cons_ne_nil m ms) hmatched hcounts

end Outcome

end DiceNotation

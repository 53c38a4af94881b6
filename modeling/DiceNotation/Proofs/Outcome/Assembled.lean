import DiceNotation.Proofs.Outcome.Revising

/-! Outcomes put together. A die ends by scoring its throws, by marking those that are matched and by
sorting them; each of the three ends is a step of its own here. -/

namespace DiceNotation

namespace Outcome

def scoredThrows (hasTargets : Bool) (ts : List Throw) : List Throw :=
  if hasTargets then ts.map Stage.score else ts

def markedThrows (matching : Option (Matching Number)) (ts : List Throw) : List Throw :=
  match matching with
  | some m => Stage.withMatches m ts
  | none => ts

def sortedThrows (sorting : Option Sorting) (ts : List Throw) : List Throw :=
  match sorting with
  | some order => Stage.sortThrows order ts
  | none => ts

/-- A score is a value and a verdict put into the status. Which ones stays closed here: to look into
them would be to compute with numbers at the bounds of their range. -/
theorem score_eq (t : Throw) : ∃ value success,
    Stage.score t = { t with status := { t.status with value := value, success := success } } :=
  ⟨_, _, rfl⟩

@[simp] theorem status_relabel (o : Outcome) (label : Option String) :
    (o.relabel label).status = o.status := by
  cases label <;> rfl

@[simp] theorem length_scoredThrows (hasTargets : Bool) (ts : List Throw) :
    (scoredThrows hasTargets ts).length = ts.length := by
  cases hasTargets <;> simp [scoredThrows]

@[simp] theorem length_markedThrows (matching : Option (Matching Number)) (ts : List Throw) :
    (markedThrows matching ts).length = ts.length := by
  cases matching <;> simp [markedThrows, Stage.withMatches]

@[simp] theorem length_sortedThrows (sorting : Option Sorting) (ts : List Throw) :
    (sortedThrows sorting ts).length = ts.length := by
  match sorting with
  | none => rfl
  | some .ascending | some .descending => simp [sortedThrows, Stage.sortThrows]

section Die

variable {count : Outcome} {faces : Option Outcome} {hasTargets : Bool}
  {matching : Option (Matching Number)} {sorting : Option Sorting} {ts : List Throw}

theorem throws_ofDie : (ofDie count faces hasTargets matching sorting ts).throws =
    sortedThrows sorting (markedThrows matching (scoredThrows hasTargets ts)) :=
  rfl

theorem operands_ofDie :
    (ofDie count faces hasTargets matching sorting ts).operands = count :: faces.toList :=
  rfl

theorem order_ofDie : (ofDie count faces hasTargets matching sorting ts).status.order = 0 := by
  unfold ofDie
  cases hasTargets <;> rfl

theorem order_ofGroup {members : List Outcome} {ss : List Status} :
    (ofGroup members hasTargets ss).status.order = 0 := by
  unfold ofGroup
  cases hasTargets <;> rfl

theorem forall_scoredThrows {P : Throw → Prop}
    (hscore : ∀ t v b, P t → P { t with status := { t.status with value := v, success := b } })
    (hts : ∀ t ∈ ts, P t) : ∀ t ∈ scoredThrows hasTargets ts, P t := by
  unfold scoredThrows
  split
  · refine List.forall_mem_map.mpr fun t ht => ?_
    obtain ⟨value, success, heq⟩ := score_eq t
    rw [heq]
    exact hscore t value success (hts t ht)
  · exact hts

theorem forall_markedThrows {P : Throw → Prop} (hmatch : ∀ t, P t → P { t with matched := true })
    (hts : ∀ t ∈ ts, P t) : ∀ t ∈ markedThrows matching ts, P t := by
  unfold markedThrows
  split
  · refine List.forall_mem_map.mpr fun t ht => ?_
    split
    · exact hmatch t (hts t ht)
    · exact hts t ht
  · exact hts

theorem forall_sortedThrows {P : Throw → Prop} (hplace : ∀ t i, P t → P (t.place i))
    (hts : ∀ t ∈ ts, P t) : ∀ t ∈ sortedThrows sorting ts, P t := by
  have hline {us : List Throw} (hus : us.Perm ts) : ∀ t ∈ Throw.lineUp us, P t := by
    intro t ht
    obtain ⟨i, hi, rfl⟩ := List.mem_mapIdx.mp ht
    exact hplace _ i (hts _ (hus.mem_iff.mp (List.getElem_mem hi)))
  match sorting with
  | none => exact hts
  | some .ascending | some .descending => exact hline (stableSort_perm _ ts)

/-- What outlives the three ends of a die holds of its throws in the outcome. -/
theorem forall_throws_ofDie {P : Throw → Prop}
    (hscore : ∀ t v b, P t → P { t with status := { t.status with value := v, success := b } })
    (hmatch : ∀ t, P t → P { t with matched := true }) (hplace : ∀ t i, P t → P (t.place i))
    (hts : ∀ t ∈ ts, P t) :
    ∀ t ∈ (ofDie count faces hasTargets matching sorting ts).throws, P t :=
  forall_sortedThrows hplace (forall_markedThrows hmatch (forall_scoredThrows hscore hts))

theorem inLine_throws_ofDie (hts : Stage.InLine ts) :
    Stage.InLine (ofDie count faces hasTargets matching sorting ts).throws := by
  have hscored : Stage.InLine (scoredThrows hasTargets ts) := by
    unfold scoredThrows
    split
    · refine hts.map fun t => ?_
      obtain ⟨value, success, heq⟩ := score_eq t
      rw [heq]
    · exact hts
  have hmarked : Stage.InLine (markedThrows matching (scoredThrows hasTargets ts)) := by
    generalize scoredThrows hasTargets ts = scored at hscored
    cases matching with
    | none => exact hscored
    | some m =>
      refine hscored.map fun t => ?_
      split <;> rfl
  rw [throws_ofDie]
  match sorting with
  | none => exact hmarked
  | some .ascending | some .descending => exact Stage.inLine_lineUp _

end Die

/-- A group holds its members as its modifiers revised them. -/
theorem body_ofGroup {members : List Outcome} (hasTargets : Bool) {ss : List Status}
    (hss : List.Forall₂ (Status.Marks true) (entries members) ss) :
    ∃ members', List.Forall₂ Revised members members' ∧
      (ofGroup members hasTargets ss).body = .group members' := by
  unfold ofGroup
  split
  · have hjudged : List.Forall₂ (Status.Marks true) (entries members) (ss.map Stage.judge) :=
      List.forall₂_map_right_iff.mpr (hss.imp fun _ s h => h.trans (.judge s))
    exact ⟨_, revised_withEntries hjudged, rfl⟩
  · exact ⟨_, revised_withEntries hss, rfl⟩

theorem map_order_of_revised {members members' : List Outcome}
    (h : List.Forall₂ Revised members members') :
    members'.map (fun o => o.status.order) = members.map (fun o => o.status.order) := by
  induction h with
  | nil => rfl
  | cons first _ ih => rw [List.map_cons, List.map_cons, first.order_eq, ih]

end Outcome

end DiceNotation

import DiceNotation.Proofs.Chance.Gives
import DiceNotation.Proofs.Stage.Marking
import DiceNotation.Formula.Roll

/-! What the modifiers of a die do to its throws. Each of them leaves the throws it found, changed in
small steps, and adds throws freshly drawn; a property that these steps keep is kept by any list of
modifiers. -/

namespace DiceNotation

/-- A small step by which a modifier changes a throw. -/
inductive Throw.Step : Modifier Number → Throw → Throw → Prop
  | place {m : Modifier Number} {t : Throw} (order : Nat) : Step m t (t.place order)
  | mark {m : Modifier Number} {t : Throw} {s : Status} (h : t.status.Marks m.isTarget s) :
      Step m t { t with status := s }
  | tag {m : Modifier Number} {t : Throw} (tag : Option Crit) : Step m t { t with critical := tag }
  | explode {mode : Explosion} {condition : Option (Target Number)} {t : Throw} :
      Step (.explode mode condition) t { t with exploded := true }
  | compound {condition : Option (Target Number)} {t : Throw} (face : Int64) :
      Step (.explode .compound condition) t
        { t with
          status := { t.status with value := t.value + .int face }
          face := t.face + face
          exploded := true }
  | penetrate {condition : Option (Target Number)} {t : Throw} :
      Step (.explode .penetrate condition) t
        { t with status := { t.status with value := t.value - .int 1 } }
  | reroll {once : Bool} {condition : Option (Target Number)} {t : Throw} (h : t.valid = true) :
      Step (.reroll once condition) t (Stage.discarded t)

/-- What a modifier cannot break about throws: it outlives every step, and a fresh throw of the same
die has it. -/
structure Throw.Invariant (m : Modifier Number) (P : Throw → Prop) : Prop where
  step : ∀ t u, Step m t u → P t → P u
  fresh : ∀ t sample, P t → P (Throw.fresh t.faces (t.faces.ofSample sample) 0)

theorem forall₂_append_split {α β : Type} {R : α → β → Prop} {xs ys : List α} {zs : List β}
    (h : List.Forall₂ R (xs ++ ys) zs) :
    ∃ us vs, List.Forall₂ R xs us ∧ List.Forall₂ R ys vs ∧ zs = us ++ vs := by
  induction xs generalizing zs with
  | nil => exact ⟨[], zs, .nil, h, rfl⟩
  | cons x xs ih =>
    obtain ⟨z, zs, hz, hzs, rfl⟩ := List.forall₂_cons_left_iff.mp h
    obtain ⟨us, vs, hus, hvs, rfl⟩ := ih hzs
    exact ⟨z :: us, vs, .cons hz hus, hvs, rfl⟩

namespace Throw

theorem Invariant.place {m : Modifier Number} {P : Throw → Prop} (hP : Invariant m P) (t : Throw)
    (order : Nat) (ht : P t) : P (t.place order) :=
  hP.step _ _ (.place order) ht

theorem Invariant.and {m : Modifier Number} {P Q : Throw → Prop} (hP : Invariant m P)
    (hQ : Invariant m Q) : Invariant m fun t => P t ∧ Q t where
  step t u h ht := ⟨hP.step t u h ht.1, hQ.step t u h ht.2⟩
  fresh t sample ht := ⟨hP.fresh t sample ht.1, hQ.fresh t sample ht.2⟩

/-- Throws differ by no more than where they stand once they are lined up. -/
theorem map_lineUp {β : Type} {w : Throw → β} (hw : ∀ t i, w (t.place i) = w t) (ts : List Throw) :
    (lineUp ts).map w = ts.map w := by
  apply List.ext_getElem <;> simp [lineUp, hw]

/-- A throw of which no more than the status was marked. -/
def Marks (c : Bool) (t u : Throw) : Prop :=
  t.status.Marks c u.status ∧ u = { t with status := u.status }

variable {c : Bool}

theorem forall_of_marks {P : Throw → Prop}
    (hP : ∀ t s, t.status.Marks c s → P t → P { t with status := s }) {ts us : List Throw}
    (h : List.Forall₂ (Marks c) ts us) (hts : ∀ t ∈ ts, P t) : ∀ u ∈ us, P u := by
  induction h with
  | nil => simp
  | cons htu _ ih =>
    obtain ⟨ht, hts⟩ := List.forall_mem_cons.mp hts
    rw [List.forall_mem_cons, htu.2]
    exact ⟨hP _ _ htu.1 ht, ih hts⟩

/-- As many statuses as there are throws go back into them, and the rest is left over. -/
theorem refill_of_marks {ts : List Throw} {ss : List Status}
    (h : List.Forall₂ (Status.Marks c) (ts.map status) ss) (rest : List Status) :
    ∃ us, refill ts (ss ++ rest) = (us, rest) ∧ List.Forall₂ (Marks c) ts us := by
  induction ts generalizing ss with
  | nil =>
    obtain rfl := List.forall₂_nil_left_iff.mp h
    exact ⟨[], rfl, .nil⟩
  | cons t ts ih =>
    obtain ⟨s, ss, hs, hss, rfl⟩ := List.forall₂_cons_left_iff.mp h
    obtain ⟨us, hus, hmarks⟩ := ih hss
    refine ⟨{ t with status := s } :: us, ?_, .cons ⟨hs, rfl⟩ hmarks⟩
    rw [List.cons_append, refill, hus]

end Throw

namespace Stage

open Throw (Step Invariant)

theorem forall₂_onThrows {m : Modifier Number} {stage : List Entry → List Entry}
    (h : ofModifier? m = some stage) (ts : List Throw) :
    List.Forall₂ (Throw.Marks m.isTarget) ts (onThrows stage ts) := by
  have hmarks := Entry.statuses_of_moved (moved_of_ofModifier? h (Entry.ofThrows ts))
    (Entry.pairwise_place_ofThrows ts)
  rw [Entry.map_status_ofThrows] at hmarks
  obtain ⟨us, hus, hus'⟩ := Throw.refill_of_marks hmarks []
  rw [List.append_nil] at hus
  rwa [onThrows, hus]

variable {samples : Samples} {P : Throw → Prop}

section Bonus

variable {mode : Explosion} {target : Option (Target Number)} {condition : Target Number}

theorem mem_bonuses {faces : Faces Int64} {fuel cursor : Nat} {latest face : Int64}
    (h : face ∈ bonuses samples faces condition fuel cursor latest) :
    ∃ sample, face = faces.ofSample sample := by
  induction fuel generalizing cursor latest with
  | zero => simp [bonuses] at h
  | succ fuel ih =>
    rw [bonuses] at h
    split at h
    · rcases List.mem_cons.mp h with rfl | h
      · exact ⟨_, rfl⟩
      · exact ih h
    · simp at h

theorem mem_bonusesOf {faces : Faces Int64} {cursor : Nat} {t : Throw} {face : Int64}
    (h : face ∈ bonusesOf samples faces condition cursor t) :
    ∃ sample, face = faces.ofSample sample := by
  unfold bonusesOf at h
  split at h
  · exact mem_bonuses h
  · simp at h

theorem forall_withBonuses (hP : Invariant (.explode mode target) P) {faces : Faces Int64}
    {bonus : List Int64} (hbonus : ∀ face ∈ bonus, P (Throw.fresh faces face 0)) {t : Throw}
    (ht : P t) : ∀ u ∈ withBonuses faces mode t bonus, P u := by
  induction bonus generalizing t with
  | nil => simpa [withBonuses] using ht
  | cons face rest ih =>
    have hface : P (Throw.fresh faces face 0) := hbonus face List.mem_cons_self
    have hthrow : P (bonusThrow faces mode face) := by
      cases mode with
      | penetrate => exact hP.step _ _ .penetrate hface
      | explode | compound => exact hface
    rw [withBonuses, List.forall_mem_cons]
    exact ⟨hP.step _ _ .explode ht,
      ih (fun face hmem => hbonus face (List.mem_cons_of_mem _ hmem)) hthrow⟩

theorem compounded_keeps (hP : Invariant (.explode .compound target) P) (bonus : List Int64)
    {t : Throw} (ht : P t) : P (compounded t bonus) := by
  unfold compounded
  induction bonus generalizing t with
  | nil => exact ht
  | cons face rest ih => exact ih (hP.step _ _ (.compound face) ht)

theorem forall_explodeBlock (hP : Invariant (.explode mode target) P) {faces : Faces Int64}
    {bonus : List Int64} (hbonus : ∀ face ∈ bonus, P (Throw.fresh faces face 0)) {t : Throw}
    (ht : P t) : ∀ u ∈ explodeBlock faces mode t bonus, P u := by
  cases mode with
  | compound => simpa [explodeBlock] using compounded_keeps hP bonus ht
  | explode | penetrate => exact forall_withBonuses hP hbonus ht

theorem forall_explodeFrom (hP : Invariant (.explode mode target) P) {faces : Faces Int64}
    (hfresh : ∀ sample, P (Throw.fresh faces (faces.ofSample sample) 0)) {ts : List Throw}
    (hts : ∀ t ∈ ts, P t) (cursor : Nat) :
    ∀ u ∈ (explodeFrom samples faces condition mode cursor ts).1, P u := by
  induction ts generalizing cursor with
  | nil => simp [explodeFrom]
  | cons t ts ih =>
    obtain ⟨ht, hts⟩ := List.forall_mem_cons.mp hts
    have hbonus : ∀ face ∈ bonusesOf samples faces condition cursor t,
        P (Throw.fresh faces face 0) := by
      intro face hface
      obtain ⟨sample, rfl⟩ := mem_bonusesOf hface
      exact hfresh sample
    intro u hu
    rcases List.mem_append.mp hu with hu | hu
    · exact forall_explodeBlock hP hbonus ht u hu
    · exact ih hts _ u hu

theorem explode_ok {name : String} {cursor stop : Nat} {ts us : List Throw}
    (h : explode samples mode target name cursor ts = (.ok us, stop)) :
    ts = [] ∧ us = [] ∧ stop = cursor ∨
      ∃ t ∈ ts, ∃ condition, us = Throw.lineUp
          (explodeFrom samples t.faces condition mode cursor ts).1 ∧
        stop = (explodeFrom samples t.faces condition mode cursor ts).2 := by
  cases ts with
  | nil =>
    cases h
    exact Or.inl ⟨rfl, rfl, rfl⟩
  | cons t ts =>
    simp only [explode] at h
    split at h
    · cases h
    · cases h
      exact Or.inr ⟨t, List.mem_cons_self, _, rfl, rfl⟩

end Bonus

section Chase

variable {once : Bool} {target : Option (Target Number)} {condition : Target Number}

theorem mem_chase {faces : Faces Int64} {patience cursor : Nat} {found : List Int64}
    (h : chase samples condition faces patience cursor = some found) {face : Int64}
    (hface : face ∈ found) : ∃ sample, face = faces.ofSample sample := by
  induction patience generalizing cursor found with
  | zero => simp [chase] at h
  | succ patience ih =>
    rw [chase] at h
    split at h
    · obtain ⟨rest, hrest, rfl⟩ := Option.map_eq_some_iff.mp h
      rcases List.mem_cons.mp hface with rfl | hface
      · exact ⟨_, rfl⟩
      · exact ih hrest hface
    · cases h
      exact ⟨_, List.mem_singleton.mp hface⟩

/-- Only a valid throw is thrown again, and always as a die with the same faces. -/
theorem mem_replacements {patience cursor : Nat} {t : Throw} {found : List Int64}
    (h : replacements samples condition patience once cursor t = some found) {face : Int64}
    (hface : face ∈ found) : t.valid = true ∧ ∃ sample, face = t.faces.ofSample sample := by
  unfold replacements at h
  split at h
  · rename_i ht
    refine ⟨(Bool.and_eq_true_iff.mp ht).1, ?_⟩
    split at h
    · cases h
      exact ⟨_, List.mem_singleton.mp hface⟩
    · exact mem_chase h hface
  · cases h
    simp at hface

theorem forall_withReplacements (hP : Invariant (.reroll once target) P) {t : Throw}
    {found : List Int64} (hvalid : ∀ face ∈ found, t.valid = true)
    (hfound : ∀ face ∈ found, P (Throw.fresh t.faces face 0)) (ht : P t) :
    ∀ u ∈ withReplacements t found, P u := by
  induction found generalizing t with
  | nil => simpa [withReplacements] using ht
  | cons face rest ih =>
    rw [withReplacements, List.forall_mem_cons]
    refine ⟨hP.step _ _ (.reroll (hvalid face List.mem_cons_self)) ht, ?_⟩
    exact ih (fun _ _ => rfl) (fun face hmem => hfound face (List.mem_cons_of_mem _ hmem))
      (hfound face List.mem_cons_self)

theorem forall_rerollFrom (hP : Invariant (.reroll once target) P) {patience cursor stop : Nat}
    {ts us : List Throw} (hts : ∀ t ∈ ts, P t)
    (h : rerollFrom samples condition patience once cursor ts = some (us, stop)) :
    ∀ u ∈ us, P u := by
  induction ts generalizing cursor us with
  | nil =>
    cases h
    simp
  | cons t ts ih =>
    obtain ⟨ht, hts⟩ := List.forall_mem_cons.mp hts
    obtain ⟨found, hfound, h⟩ := Option.bind_eq_some_iff.mp h
    obtain ⟨⟨rest, stop'⟩, hrest, h⟩ := Option.bind_eq_some_iff.mp h
    cases h
    intro u hu
    rcases List.mem_append.mp hu with hu | hu
    · refine forall_withReplacements hP (fun _ hface => (mem_replacements hfound hface).1)
        (fun face hface => ?_) ht u hu
      obtain ⟨-, sample, rfl⟩ := mem_replacements hfound hface
      exact hP.fresh t sample ht
    · exact ih hts hrest u hu

theorem reroll_ok {name : String} {patience cursor stop : Nat} {ts us : List Throw}
    (h : reroll samples patience once target name cursor ts = (.ok us, stop)) :
    ∃ condition vs, rerollFrom samples condition patience once cursor ts = some (vs, stop) ∧
      us = Throw.lineUp vs := by
  cases ts with
  | nil =>
    cases h
    exact ⟨⟨.equal, .zero⟩, [], rfl, rfl⟩
  | cons t ts =>
    simp only [reroll] at h
    split at h
    · cases h
    · split at h
      · cases h
        exact ⟨_, _, ‹_›, rfl⟩
      · cases h

end Chase

/-- Whether it meets the condition or not, a throw is left as it was but for its tag. -/
theorem exists_critical (tag : Crit) (condition : Target Number) (t : Throw) :
    ∃ crit, critical tag condition t = { t with critical := crit } := by
  unfold critical
  split
  · exact ⟨t.critical, rfl⟩
  · split
    · exact ⟨t.critical, rfl⟩
    · split
      · exact ⟨some tag, rfl⟩
      · split
        · exact ⟨none, rfl⟩
        · exact ⟨t.critical, rfl⟩

/-- Throws whose order tells where they stand. -/
def InLine (ts : List Throw) : Prop :=
  ts.map (fun t => t.status.order) = List.range ts.length

theorem inLine_lineUp (ts : List Throw) : InLine (Throw.lineUp ts) := by
  apply List.ext_getElem <;> simp [Throw.lineUp, Throw.place]

theorem inLine_drawMany (cursor : Nat) (faces : Faces Int64) (n : Nat) :
    InLine (Throw.drawMany samples cursor faces n) := by
  apply List.ext_getElem <;> simp [Throw.drawMany, Throw.draw, Throw.fresh]

theorem InLine.of_forall₂ {R : Throw → Throw → Prop} {ts us : List Throw}
    (hR : ∀ t u, R t u → u.status.order = t.status.order) (h : List.Forall₂ R ts us)
    (hts : InLine ts) : InLine us := by
  have horder : us.map (fun t => t.status.order) = ts.map (fun t => t.status.order) := by
    clear hts
    induction h with
    | nil => rfl
    | cons htu _ ih => simp [hR _ _ htu, ih]
  rw [InLine, horder, hts, h.length_eq]

theorem InLine.map {f : Throw → Throw} (hf : ∀ t, (f t).status.order = t.status.order)
    {ts : List Throw} (hts : InLine ts) : InLine (ts.map f) :=
  hts.of_forall₂ (R := fun t u => u.status.order = t.status.order) (fun _ _ h => h)
    (List.forall₂_map_right_iff.mpr (List.forall₂_same.mpr fun t _ => hf t))

theorem forall_lineUp (hP : ∀ t i, P t → P (t.place i)) {ts : List Throw} (hts : ∀ t ∈ ts, P t) :
    ∀ u ∈ Throw.lineUp ts, P u := by
  intro u hu
  obtain ⟨i, hi, rfl⟩ := List.mem_mapIdx.mp hu
  exact hP _ i (hts _ (List.getElem_mem hi))

end Stage

namespace Play

open Throw (Step Invariant)
open Stage (InLine)

variable {table : Table} {n : Nat} {P : Throw → Prop} {m : Modifier Number} {ts : List Throw}

theorem gives_throwStage (hP : Invariant m P) (hts : ∀ t ∈ ts, P t) :
    (throwStage m ts).Gives table n fun us _ => ∀ u ∈ us, P u := by
  have onThrows (stage : List Entry → List Entry) (h : Stage.ofModifier? m = some stage) :
      ∀ u ∈ Stage.onThrows stage ts, P u :=
    Throw.forall_of_marks (fun _ _ h => hP.step _ _ (.mark h)) (Stage.forall₂_onThrows h ts) hts
  cases m with
  | critical condition | criticalFailure condition =>
    simp only [throwStage, gives_pure, List.forall_mem_map]
    intro t ht
    obtain ⟨crit, hcritical⟩ := Stage.exists_critical _ condition t
    rw [hcritical]
    exact hP.step _ _ (.tag crit) (hts t ht)
  | explode mode target =>
    rw [throwStage, gives_step]
    intro us stop h
    obtain ⟨rfl, rfl, -⟩ | ⟨t, ht, condition, rfl, -⟩ := Stage.explode_ok h
    · exact hts
    · exact Stage.forall_lineUp hP.place (Stage.forall_explodeFrom hP
        (fun sample => hP.fresh t sample (hts t ht)) hts n)
  | reroll once target =>
    rw [throwStage, gives_step]
    intro us stop h
    obtain ⟨condition, vs, hfrom, rfl⟩ := Stage.reroll_ok h
    exact Stage.forall_lineUp hP.place (Stage.forall_rerollFrom hP hts hfrom)
  | keep | drop | success | failure =>
    simpa [throwStage, Stage.ofModifier?] using onThrows _ rfl
  | unknown => simp [throwStage, Stage.ofModifier?]

theorem gives_throwStage_inLine (hts : InLine ts) :
    (throwStage m ts).Gives table n fun us _ => InLine us := by
  have onThrows (stage : List Entry → List Entry) (h : Stage.ofModifier? m = some stage) :
      InLine (Stage.onThrows stage ts) :=
    hts.of_forall₂ (fun _ _ h => h.1.order) (Stage.forall₂_onThrows h ts)
  cases m with
  | critical condition | criticalFailure condition =>
    simp only [throwStage, gives_pure]
    refine hts.map fun t => ?_
    obtain ⟨crit, hcritical⟩ := Stage.exists_critical _ condition t
    rw [hcritical]
  | explode mode target =>
    rw [throwStage, gives_step]
    intro us stop h
    obtain ⟨rfl, rfl, -⟩ | ⟨t, ht, condition, rfl, -⟩ := Stage.explode_ok h
    · exact hts
    · exact Stage.inLine_lineUp _
  | reroll once target =>
    rw [throwStage, gives_step]
    intro us stop h
    obtain ⟨condition, vs, -, rfl⟩ := Stage.reroll_ok h
    exact Stage.inLine_lineUp vs
  | keep | drop | success | failure =>
    simpa [throwStage, Stage.ofModifier?] using onThrows _ rfl
  | unknown => simp [throwStage, Stage.ofModifier?]

end Play

end DiceNotation

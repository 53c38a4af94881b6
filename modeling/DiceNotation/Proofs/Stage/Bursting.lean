import DiceNotation.Proofs.Stage.Draws
import DiceNotation.Proofs.Stage.Endless
import DiceNotation.Proofs.Stage.Succession

/-! Dice that explode. A valid die is followed by the bonus dice that it brought, drawn one after the
other until one of them fails the condition or the limit is reached; they stand right behind it, in
front of the next die, and each that another follows has exploded. -/

namespace DiceNotation

/-- What a bonus die is worth: one that penetrates is worth one less than it shows. -/
def Explosion.bonusValue : Explosion → Int64 → Number
  | .penetrate, face => .int (face - 1)
  | _, face => .int face

namespace Stage

/-- The bonus die that is drawn at a place of the source. -/
def bonusDie (samples : Samples) (faces : Faces Int64) (mode : Explosion) (cursor : Nat) : Throw :=
  let face := faces.ofSample (samples cursor)
  { Throw.fresh faces face 0 with status := .ofValue (mode.bonusValue face) }

def exploded (t : Throw) : Throw :=
  { t with exploded := true }

/-- As many bonus dice as a throw brings: each throw that another follows meets the condition, and the
last one does not, unless there are as many bonus dice as there may be. -/
structure Bursts (samples : Samples) (faces : Faces Int64) (condition : Target Number)
    (mode : Explosion) (limit cursor : Nat) (t : Throw) (m : Nat) : Prop where
  within : m ≤ limit
  meets : ∀ u ∈ (Throw.succession (bonusDie samples faces mode) cursor t m).dropLast,
    condition.accepts (.int u.face) = true
  ends : ∀ u ∈ (Throw.succession (bonusDie samples faces mode) cursor t m).getLast?,
    condition.accepts (.int u.face) = false ∨ m = limit

/-- The block of throws that a throw becomes: itself, if it is not valid, and otherwise itself and its
bonus dice, all but the last of which have exploded. -/
inductive Exploded (samples : Samples) (faces : Faces Int64) (condition : Target Number)
    (mode : Explosion) (cursor : Nat) (t : Throw) : List Throw → Prop
  | invalid (h : t.valid = false) : Exploded samples faces condition mode cursor t [t]
  | burst {m : Nat} (h : t.valid = true)
      (hm : Bursts samples faces condition mode bonusLimit cursor t m) :
      Exploded samples faces condition mode cursor t
        (butLast exploded (Throw.succession (bonusDie samples faces mode) cursor t m))

variable {samples : Samples} {faces : Faces Int64} {condition : Target Number} {mode : Explosion}

section Block

variable {limit cursor m : Nat} {t : Throw}

theorem Bursts.none (h : condition.accepts (.int t.face) = false ∨ limit = 0) :
    Bursts samples faces condition mode limit cursor t 0 where
  within := Nat.zero_le limit
  meets := List.forall_mem_nil _
  ends u hu := by
    obtain rfl : t = u := by simpa [Throw.succession_zero] using hu
    exact h.imp_right Eq.symm

theorem Bursts.more (h : condition.accepts (.int t.face) = true)
    (hm : Bursts samples faces condition mode limit (cursor + 1)
      (bonusDie samples faces mode cursor) m) :
    Bursts samples faces condition mode (limit + 1) cursor t (m + 1) := by
  obtain ⟨hwithin, hmeets, hends⟩ := hm
  refine ⟨Nat.succ_le_succ hwithin, Throw.forall_dropLast_succession_succ _ _ _ h hmeets, ?_⟩
  rw [Throw.succession_succ]
  intro u hu
  exact (hends u hu).imp_right (congrArg (· + 1))

theorem int_sub_one (hfaces : faces.lowest ≤ faces.highest) (sample : Float) :
    (Number.int (faces.ofSample sample) - .int 1) = .int (faces.ofSample sample - 1) := by
  have hlow := Faces.neg_one_le_toInt (Faces.shows_ofSample hfaces sample)
  have hhigh := Int64.toInt_lt (faces.ofSample sample)
  have one : (1 : Int64).toInt = 1 := rfl
  refine Number.int_sub_int_of_fits ?_
  rw [Number.Fits, one]
  omega

theorem bonusThrow_eq (hfaces : faces.lowest ≤ faces.highest) (mode : Explosion) (cursor : Nat) :
    bonusThrow faces mode (faces.ofSample (samples cursor)) = bonusDie samples faces mode cursor := by
  cases mode with
  | explode | compound => rfl
  | penetrate =>
    exact congrArg (fun value => { Throw.fresh faces (faces.ofSample (samples cursor)) 0 with
      status := .ofValue value }) (int_sub_one hfaces (samples cursor))

/-- A throw and its bonus dice follow each other, all but the last of them exploded: each bonus die
is itself the throw that brings the next one. -/
theorem exists_bursts (samples : Samples) (condition : Target Number)
    (hfaces : faces.lowest ≤ faces.highest) (limit cursor : Nat) (t : Throw) : ∃ m,
      Bursts samples faces condition mode limit cursor t m ∧
      withBonuses faces mode t (bonuses samples faces condition limit cursor t.face) =
        butLast exploded (Throw.succession (bonusDie samples faces mode) cursor t m) := by
  induction limit generalizing cursor t with
  | zero => exact ⟨0, .none (Or.inr rfl), rfl⟩
  | succ limit ih =>
    by_cases h : condition.accepts (.int t.face)
    · obtain ⟨m, hm, hblock⟩ := ih (cursor + 1) (bonusDie samples faces mode cursor)
      refine ⟨m + 1, hm.more h, ?_⟩
      have hface : (bonusDie samples faces mode cursor).face = faces.ofSample (samples cursor) := rfl
      rw [hface] at hblock
      rw [bonuses, if_pos h, withBonuses, bonusThrow_eq hfaces, hblock, Throw.succession_succ]
      rfl
    · refine ⟨0, .none (Or.inl (Bool.eq_false_iff.mpr h)), ?_⟩
      rw [bonuses, if_neg h]
      rfl

end Block

section Run

theorem exploded_explodeBlock (hmode : mode ≠ .compound) (hfaces : faces.lowest ≤ faces.highest)
    (cursor : Nat) (t : Throw) : Exploded samples faces condition mode cursor t
      (explodeBlock faces mode t (bonusesOf samples faces condition cursor t)) := by
  have hblock (bonus : List Int64) :
      explodeBlock faces mode t bonus = withBonuses faces mode t bonus := by
    cases mode with
    | compound => exact absurd rfl hmode
    | explode | penetrate => rfl
  rw [hblock, bonusesOf]
  by_cases hvalid : t.valid = true
  · obtain ⟨m, hm, hbursts⟩ := exists_bursts samples condition hfaces bonusLimit cursor t
    rw [if_pos hvalid, hbursts]
    exact .burst hvalid hm
  · rw [if_neg hvalid]
    exact .invalid (Bool.eq_false_iff.mpr hvalid)

/-- The faces of the bonus dice that throws bring, for each throw. -/
def bonusRuns (samples : Samples) (faces : Faces Int64) (condition : Target Number) :
    Nat → List Throw → List (List Int64)
  | _, [] => []
  | cursor, t :: ts =>
    let bonus := bonusesOf samples faces condition cursor t
    bonus :: bonusRuns samples faces condition (cursor + bonus.length) ts

/-- What is drawn does not depend on what becomes of it. -/
theorem explodeFrom_eq (mode : Explosion) (cursor : Nat) (ts : List Throw) :
    explodeFrom samples faces condition mode cursor ts =
      ((List.zipWith (explodeBlock faces mode) ts
          (bonusRuns samples faces condition cursor ts)).flatten,
        cursor + ((bonusRuns samples faces condition cursor ts).map List.length).sum) := by
  induction ts generalizing cursor with
  | nil => rfl
  | cons t ts ih => simp [explodeFrom, bonusRuns, ih, Nat.add_assoc]

@[simp] theorem length_bonusRuns (cursor : Nat) (ts : List Throw) :
    (bonusRuns samples faces condition cursor ts).length = ts.length := by
  induction ts generalizing cursor with
  | nil => rfl
  | cons t ts ih => simp [bonusRuns, ih]

theorem shows_of_mem_bonusRuns (hfaces : faces.lowest ≤ faces.highest) {cursor : Nat}
    {ts : List Throw} {bonus : List Int64}
    (h : bonus ∈ bonusRuns samples faces condition cursor ts) : ∀ face ∈ bonus, faces.Shows face := by
  induction ts generalizing cursor with
  | nil => cases h
  | cons t ts ih =>
    rcases List.mem_cons.mp h with rfl | h
    · intro face hface
      obtain ⟨sample, rfl⟩ := mem_bonusesOf hface
      exact Faces.shows_ofSample hfaces sample
    · exact ih h

theorem inTurn_explodeFrom (samples : Samples) (condition : Target Number)
    (hmode : mode ≠ .compound) (hfaces : faces.lowest ≤ faces.highest) (cursor : Nat)
    (ts : List Throw) : InTurn (Exploded samples faces condition mode) cursor ts
      (List.zipWith (explodeBlock faces mode) ts (bonusRuns samples faces condition cursor ts))
      (cursor + ((bonusRuns samples faces condition cursor ts).map List.length).sum) := by
  induction ts generalizing cursor with
  | nil => exact .nil cursor
  | cons t ts ih =>
    have hrest := ih (cursor + (bonusesOf samples faces condition cursor t).length)
    refine .cons (exploded_explodeBlock hmode hfaces cursor t) ?_
    simpa [bonusRuns, length_explodeBlock hmode, Nat.add_assoc] using hrest

theorem explode_eq {target : Option (Target Number)} {ts : List Throw}
    (hkind : ∀ t ∈ ts, t.faces = faces) (hint : (explodesOn faces target).value.isInt = true)
    (hfails : ∃ face, faces.Shows face ∧ (explodesOn faces target).accepts (.int face) = false)
    (samples : Samples) (mode : Explosion) (name : String) (cursor : Nat) :
    explode samples mode target name cursor ts =
      (.ok (Throw.lineUp (List.zipWith (explodeBlock faces mode) ts
          (bonusRuns samples faces (explodesOn faces target) cursor ts)).flatten),
        cursor + ((bonusRuns samples faces (explodesOn faces target) cursor ts).map
          List.length).sum) := by
  rw [explode_of_not_isEndless samples name hkind (isEndless_of_fails hint hfails), explodeFrom_eq]

/-- Dice of one kind that explode, on a condition that not all of their faces meet, become blocks that
stand in line: each die that is not valid alone, and each valid one in front of its bonus dice. -/
theorem explode_bursts {target : Option (Target Number)} {ts : List Throw}
    (hmode : mode ≠ .compound) (hkind : ∀ t ∈ ts, t.faces = faces)
    (hint : (explodesOn faces target).value.isInt = true)
    (hfails : ∃ face, faces.Shows face ∧ (explodesOn faces target).accepts (.int face) = false)
    (samples : Samples) (name : String) (cursor : Nat) : ∃ blocks us stop,
      explode samples mode target name cursor ts = (.ok us, stop) ∧
      us = Throw.lineUp blocks.flatten ∧ InLine us ∧
      InTurn (Exploded samples faces (explodesOn faces target) mode) cursor ts blocks stop ∧
      stop = cursor + (blocks.map fun block => block.tail.length).sum := by
  have hrun := explode_eq hkind hint hfails samples mode name cursor
  obtain ⟨face, hshown, -⟩ := hfails
  have hturns := inTurn_explodeFrom samples (explodesOn faces target) hmode hshown.proper cursor ts
  exact ⟨_, _, _, hrun, rfl, inLine_lineUp _, hturns, hturns.stop_eq⟩

/-- A six that brings two sixes and a one, a six that is not valid, and a six that brings a one; each
of the bonus dice is worth one less than it shows. -/
theorem explode_bursts_penetrate : ∃ (blocks : List (List Throw)) (us : List Throw),
    explode (fun i => if i < 2 then 0.9 else 0.1) .penetrate none "penetrate" 0
      [.fresh (.sides 6) 6 0, discarded (.fresh (.sides 6) 6 1), .fresh (.sides 6) 6 2] =
        (.ok us, 4) ∧
    us = Throw.lineUp blocks.flatten ∧
    InTurn (Exploded (fun i => if i < 2 then 0.9 else 0.1) (.sides 6) ⟨.equal, .int 6⟩ .penetrate) 0
      [.fresh (.sides 6) 6 0, discarded (.fresh (.sides 6) 6 1), .fresh (.sides 6) 6 2] blocks 4 ∧
    us.map (fun u => (u.face, u.value.toInt64)) =
      [(6, 6), (6, 5), (6, 5), (1, 0), (6, 6), (6, 6), (1, 0)] := by
  have hkind : ∀ t ∈ [Throw.fresh (.sides 6) 6 0, discarded (.fresh (.sides 6) 6 1),
      .fresh (.sides 6) 6 2], t.faces = .sides 6 := by
    simp [Throw.fresh, discarded]
  have hfails : ∃ face, Faces.Shows (.sides 6) face ∧
      (explodesOn (.sides 6) none).accepts (.int face) = false := ⟨1, by decide, by decide⟩
  have hmode : Explosion.penetrate ≠ .compound := by decide
  obtain ⟨blocks, us, stop, hrun, hus, -, hturns, -⟩ := explode_bursts hmode hkind rfl hfails
    (fun i => if i < 2 then 0.9 else 0.1) "penetrate" 0
  obtain ⟨vs, hvs, hshown⟩ := exists_of_ends (x := explode
    (fun i => if i < 2 then 0.9 else 0.1) .penetrate none "penetrate" 0 [.fresh (.sides 6) 6 0,
      discarded (.fresh (.sides 6) 6 1), .fresh (.sides 6) 6 2]) (P := fun us =>
        us.map (fun u => (u.face, u.value.toInt64)) ==
          [(6, 6), (6, 5), (6, 5), (1, 0), (6, 6), (6, 6), (1, 0)]) (m := 4) (by decide +kernel)
  cases hrun.symm.trans hvs
  exact ⟨blocks, us, hrun, hus, hturns, beq_iff_eq.mp hshown⟩

end Run

end Stage

end DiceNotation

import DiceNotation.Proofs.Chance.Bounds
import DiceNotation.Proofs.Chance.Gives
import DiceNotation.Proofs.Number.Range
import DiceNotation.Formula.Roll

/-! Conditions that a die can never fail. Two integers that meet a condition have all integers between
them meet it too, so the lowest and the highest face speak for all of them; a stage that would throw
dice without end is refused before anything is drawn, and no other stage is. -/

namespace DiceNotation

namespace Target

theorem accepts_int (relation : Relation) (goal i : Int64) :
    (⟨relation, .int goal⟩ : Target Number).accepts (.int i) =
      match relation with
      | .atLeast => decide (goal.toInt ≤ i.toInt)
      | .atMost => decide (i.toInt ≤ goal.toInt)
      | .equal => decide (i.toInt = goal.toInt) := by
  cases relation with
  | atLeast => exact Number.atMost_int_int goal i
  | atMost => exact Number.atMost_int_int i goal
  | equal => exact Number.same_int_int i goal

/-- What two integers meet is met by all between them. -/
theorem accepts_between {c : Target Number} (hc : c.value.isInt = true) {low high i : Int64}
    (hlow : c.accepts (.int low) = true) (hhigh : c.accepts (.int high) = true) (hle : low ≤ i)
    (hge : i ≤ high) : c.accepts (.int i) = true := by
  obtain ⟨relation, value⟩ := c
  obtain ⟨goal, rfl⟩ := Number.exists_of_isInt hc
  rw [Int64.le_iff_toInt_le] at hle hge
  rw [accepts_int] at hlow hhigh ⊢
  cases relation with
  | atLeast | atMost | equal =>
    simp only [decide_eq_true_eq] at hlow hhigh ⊢
    omega

end Target

/-- What dice explode on: by default the highest face. -/
def explodesOn (faces : Faces Int64) (target : Option (Target Number)) : Target Number :=
  target.getD ⟨.equal, .int faces.highest⟩

/-- What dice are thrown again on: by default the lowest face. -/
def rerollsOn (faces : Faces Int64) (target : Option (Target Number)) : Target Number :=
  target.getD ⟨.equal, .int faces.lowest⟩

/-- The condition on which a modifier throws dice, if it throws any. -/
def Modifier.throwsOn? (faces : Faces Int64) : Modifier Number → Option (Target Number)
  | .explode _ target => some (explodesOn faces target)
  | .reroll _ target => some (rerollsOn faces target)
  | _ => none

namespace Stage

variable {faces : Faces Int64} {condition : Target Number} {target : Option (Target Number)}

/-- The lowest and the highest face speak for all faces of a die. -/
theorem isEndless_iff (hfaces : faces.lowest ≤ faces.highest) (hint : condition.value.isInt = true) :
    isEndless faces condition = true ↔
      ∀ face, faces.Shows face → condition.accepts (.int face) = true := by
  rw [isEndless, Bool.and_eq_true]
  constructor
  · rintro ⟨hlow, hhigh⟩ face ⟨hle, hge⟩
    exact Target.accepts_between hint hlow hhigh hle hge
  · intro h
    exact ⟨h _ ⟨Int64.le_refl _, hfaces⟩, h _ ⟨hfaces, Int64.le_refl _⟩⟩

theorem isEndless_of_fails (hint : condition.value.isInt = true)
    (hfails : ∃ face, faces.Shows face ∧ condition.accepts (.int face) = false) :
    isEndless faces condition = false := by
  obtain ⟨face, hshown, hface⟩ := hfails
  refine Bool.eq_false_iff.mpr fun h => ?_
  rw [(isEndless_iff hshown.proper hint).mp h face hshown] at hface
  cases hface

section Stages

variable (samples : Samples) (name : String) {ts : List Throw}

theorem explode_of_isEndless (hts : ts ≠ []) (hkind : ∀ t ∈ ts, t.faces = faces)
    (h : isEndless faces (explodesOn faces target) = true) (mode : Explosion) (cursor : Nat) :
    explode samples mode target name cursor ts = (.error (.endless name), cursor) := by
  cases ts with
  | nil => exact absurd rfl hts
  | cons t ts =>
    obtain rfl := hkind t List.mem_cons_self
    exact if_pos h

theorem explode_of_not_isEndless (hkind : ∀ t ∈ ts, t.faces = faces)
    (h : isEndless faces (explodesOn faces target) = false) (mode : Explosion) (cursor : Nat) :
    explode samples mode target name cursor ts =
      (.ok (Throw.lineUp (explodeFrom samples faces (explodesOn faces target) mode cursor ts).1),
        (explodeFrom samples faces (explodesOn faces target) mode cursor ts).2) := by
  cases ts with
  | nil => rfl
  | cons t ts =>
    obtain rfl := hkind t List.mem_cons_self
    exact if_neg (Bool.eq_false_iff.mp h)

theorem reroll_of_isEndless (hts : ts ≠ []) (hkind : ∀ t ∈ ts, t.faces = faces)
    (h : isEndless faces (rerollsOn faces target) = true) (patience : Nat) (once : Bool)
    (cursor : Nat) :
    reroll samples patience once target name cursor ts = (.error (.endless name), cursor) := by
  cases ts with
  | nil => exact absurd rfl hts
  | cons t ts =>
    obtain rfl := hkind t List.mem_cons_self
    exact if_pos h

theorem reroll_of_not_isEndless (hkind : ∀ t ∈ ts, t.faces = faces)
    (h : isEndless faces (rerollsOn faces target) = false) (patience : Nat) (once : Bool)
    (cursor : Nat) : reroll samples patience once target name cursor ts =
      match rerollFrom samples (rerollsOn faces target) patience once cursor ts with
      | some (us, stop) => (.ok (Throw.lineUp us), stop)
      | none => (.error (.unsettled name), cursor) := by
  cases ts with
  | nil => rfl
  | cons t ts =>
    obtain rfl := hkind t List.mem_cons_self
    exact if_neg (Bool.eq_false_iff.mp h)

end Stages

end Stage

namespace Play

open Stage

variable {faces : Faces Int64} {condition : Target Number} {ts : List Throw} {m : Modifier Number}

section Refused

variable (hkind : ∀ t ∈ ts, t.faces = faces) (hm : m.throwsOn? faces = some condition)

include hkind hm

theorem throwStage_of_isEndless (hts : ts ≠ []) (h : isEndless faces condition = true)
    (table : Table) (n : Nat) : throwStage m ts table n = (.error (.endless m.name), n) := by
  cases m with
  | explode mode target =>
    obtain rfl := Option.some.inj hm
    rw [throwStage, step, explode_of_isEndless _ _ hts hkind h]
  | reroll once target =>
    obtain rfl := Option.some.inj hm
    rw [throwStage, step, reroll_of_isEndless _ _ hts hkind h]
  | _ => cases hm

theorem isEndless_of_throwStage {table : Table} {n : Nat}
    (hrun : (throwStage m ts table n).1 = .error (.endless m.name)) :
    isEndless faces condition = true := by
  cases h : isEndless faces condition with
  | true => rfl
  | false =>
    cases m with
    | explode mode target =>
      obtain rfl := Option.some.inj hm
      rw [throwStage, step, explode_of_not_isEndless _ _ hkind h] at hrun
      cases hrun
    | reroll once target =>
      obtain rfl := Option.some.inj hm
      rw [throwStage, step, reroll_of_not_isEndless _ _ hkind h] at hrun
      cases hfrom : rerollFrom table.samples (rerollsOn faces target) table.patience once n ts with
      | none | some r =>
        rw [hfrom] at hrun
        cases hrun
    | _ => cases hm

/-- Dice are refused to be thrown again if and only if each of their faces meets the condition. They
are refused whatever the source holds and wherever it stands, so that nothing was drawn and no throw
was made of those that there were; and where there are none, nothing is refused and nothing done. -/
theorem throwStage_endless_iff (hts : ts ≠ []) (hfaces : faces.lowest ≤ faces.highest)
    (hint : condition.value.isInt = true) (table : Table) (n : Nat) :
    ((throwStage m ts table n).1 = .error (.endless m.name) ↔
        ∀ face, faces.Shows face → condition.accepts (.int face) = true) ∧
      ((throwStage m ts table n).1 = .error (.endless m.name) →
        ∀ table' n', throwStage m ts table' n' = (.error (.endless m.name), n')) ∧
      (∀ mode target, throwStage (.explode mode target) [] table n = (.ok [], n)) ∧
      ∀ once target, throwStage (.reroll once target) [] table n = (.ok [], n) := by
  have hiff : (throwStage m ts table n).1 = .error (.endless m.name) ↔
      isEndless faces condition = true := by
    constructor
    · exact isEndless_of_throwStage hkind hm
    · intro h
      rw [throwStage_of_isEndless hkind hm hts h]
  refine ⟨hiff.trans (isEndless_iff hfaces hint), fun hrun => ?_, fun _ _ => rfl, fun _ _ => rfl⟩
  exact throwStage_of_isEndless hkind hm hts (hiff.mp hrun)

end Refused

/-- A fate die shows no more than one, so it is not thrown again until it shows more. -/
theorem throwStage_endless_iff_fate :
    throwStage (.reroll false (some ⟨.atMost, .int 1⟩)) [Throw.fresh .fate 0 0, Throw.fresh .fate 1 1]
      (.ofSamples fun _ => 0.5) 3 = (.error (.endless "reroll"), 3) := by
  have hkind : ∀ t ∈ [Throw.fresh .fate 0 0, Throw.fresh .fate 1 1], t.faces = .fate := by
    simp [Throw.fresh]
  have hm : (Modifier.reroll false (some ⟨.atMost, .int 1⟩)).throwsOn? .fate =
      some ⟨.atMost, .int 1⟩ := rfl
  obtain ⟨hiff, hrefused, -⟩ := throwStage_endless_iff hkind hm (List.cons_ne_nil _ _) (by decide) rfl
    (.ofSamples fun _ => 0.5) 3
  refine hrefused (hiff.mpr fun face hface => ?_) _ 3
  have hle : face.toInt ≤ 1 := Int64.le_iff_toInt_le.mp hface.2
  simpa [Target.accepts_int] using hle

end Play

end DiceNotation

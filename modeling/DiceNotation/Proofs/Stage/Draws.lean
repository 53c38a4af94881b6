import DiceNotation.Proofs.Roll.Modifiers

/-! How much the modifiers of a die draw. A draw becomes a throw of its own unless explosions
compound, so throws and draws grow by the same number. -/

namespace DiceNotation

@[simp] theorem Throw.length_drawMany (samples : Samples) (cursor : Nat) (faces : Faces Int64)
    (n : Nat) : (drawMany samples cursor faces n).length = n := by
  simp [drawMany]

namespace Stage

variable {samples : Samples} {condition : Target Number}

@[simp] theorem length_withBonuses (faces : Faces Int64) (mode : Explosion) (t : Throw)
    (bonus : List Int64) : (withBonuses faces mode t bonus).length = bonus.length + 1 := by
  induction bonus generalizing t with
  | nil => rfl
  | cons face rest ih => simp [withBonuses, ih]

@[simp] theorem length_withReplacements (t : Throw) (found : List Int64) :
    (withReplacements t found).length = found.length + 1 := by
  induction found generalizing t with
  | nil => rfl
  | cons face rest ih => simp [withReplacements, ih]

theorem length_explodeBlock {mode : Explosion} (hmode : mode ≠ .compound) (faces : Faces Int64)
    (t : Throw) (bonus : List Int64) :
    (explodeBlock faces mode t bonus).length = bonus.length + 1 := by
  cases mode with
  | compound => exact absurd rfl hmode
  | explode | penetrate => exact length_withBonuses faces _ t bonus

theorem explodeFrom_draws {mode : Explosion} (hmode : mode ≠ .compound) (faces : Faces Int64)
    (cursor : Nat) (ts : List Throw) :
    (explodeFrom samples faces condition mode cursor ts).2 + ts.length =
      cursor + (explodeFrom samples faces condition mode cursor ts).1.length := by
  induction ts generalizing cursor with
  | nil => rfl
  | cons t ts ih =>
    have hrest := ih (cursor + (bonusesOf samples faces condition cursor t).length)
    simp only [explodeFrom, List.length_append, List.length_cons, length_explodeBlock hmode]
    omega

theorem explode_draws {mode : Explosion} (hmode : mode ≠ .compound)
    {target : Option (Target Number)} {name : String} {cursor stop : Nat} {ts us : List Throw}
    (h : explode samples mode target name cursor ts = (.ok us, stop)) :
    stop + ts.length = cursor + us.length := by
  obtain ⟨rfl, rfl, rfl⟩ | ⟨t, -, condition, rfl, rfl⟩ := explode_ok h
  · rfl
  · rw [Throw.length_lineUp]
    exact explodeFrom_draws hmode t.faces cursor ts

theorem rerollFrom_draws {patience cursor stop : Nat} {once : Bool} {ts us : List Throw}
    (h : rerollFrom samples condition patience once cursor ts = some (us, stop)) :
    stop + ts.length = cursor + us.length := by
  induction ts generalizing cursor us with
  | nil =>
    cases h
    rfl
  | cons t ts ih =>
    obtain ⟨found, -, h⟩ := Option.bind_eq_some_iff.mp h
    obtain ⟨⟨rest, stop'⟩, hrest, h⟩ := Option.bind_eq_some_iff.mp h
    cases h
    have hstop := ih hrest
    simp only [List.length_append, List.length_cons, length_withReplacements]
    omega

theorem reroll_draws {patience : Nat} {once : Bool} {target : Option (Target Number)}
    {name : String} {cursor stop : Nat} {ts us : List Throw}
    (h : reroll samples patience once target name cursor ts = (.ok us, stop)) :
    stop + ts.length = cursor + us.length := by
  obtain ⟨condition, vs, hfrom, rfl⟩ := reroll_ok h
  rw [Throw.length_lineUp]
  exact rerollFrom_draws hfrom

theorem length_onThrows {m : Modifier Number} {stage : List Entry → List Entry}
    (h : ofModifier? m = some stage) (ts : List Throw) : (onThrows stage ts).length = ts.length :=
  (forall₂_onThrows h ts).length_eq.symm

theorem length_bonusesOf_le (faces : Faces Int64) (cursor : Nat) (t : Throw) :
    (bonusesOf samples faces condition cursor t).length ≤ bonusLimit := by
  unfold bonusesOf
  split
  · exact length_bonuses_le samples faces condition bonusLimit cursor t.face
  · exact Nat.zero_le _

theorem length_explodeBlock_le (mode : Explosion) (faces : Faces Int64) (t : Throw)
    (bonus : List Int64) : (explodeBlock faces mode t bonus).length ≤ bonus.length + 1 := by
  cases mode with
  | compound => exact Nat.le_add_left 1 bonus.length
  | explode | penetrate => exact Nat.le_of_eq (length_withBonuses faces _ t bonus)

/-- Explosions draw within their limit, and make no more throws than they draw. -/
theorem explodeFrom_le (mode : Explosion) (faces : Faces Int64) (cursor : Nat) (ts : List Throw) :
    (explodeFrom samples faces condition mode cursor ts).2 ≤ cursor + bonusLimit * ts.length ∧
      (explodeFrom samples faces condition mode cursor ts).1.length + cursor ≤
        (explodeFrom samples faces condition mode cursor ts).2 + ts.length := by
  induction ts generalizing cursor with
  | nil => simp [explodeFrom]
  | cons t ts ih =>
    have hbonus : (bonusesOf samples faces condition cursor t).length ≤ bonusLimit :=
      length_bonusesOf_le faces cursor t
    have hblock := length_explodeBlock_le mode faces t
      (bonusesOf samples faces condition cursor t)
    have hrest := ih (cursor + (bonusesOf samples faces condition cursor t).length)
    simp only [explodeFrom, List.length_append, List.length_cons, Nat.mul_succ]
    omega

theorem explode_le {mode : Explosion} {target : Option (Target Number)} {name : String}
    {cursor stop : Nat} {ts us : List Throw}
    (h : explode samples mode target name cursor ts = (.ok us, stop)) :
    stop ≤ cursor + bonusLimit * ts.length ∧ us.length + cursor ≤ stop + ts.length := by
  obtain ⟨rfl, rfl, rfl⟩ | ⟨t, -, condition, rfl, rfl⟩ := explode_ok h
  · simp
  · rw [Throw.length_lineUp]
    exact explodeFrom_le mode t.faces cursor ts

theorem explode_stop_le (mode : Explosion) (target : Option (Target Number)) (name : String)
    (cursor : Nat) (ts : List Throw) :
    (explode samples mode target name cursor ts).2 ≤ cursor + bonusLimit * ts.length := by
  rcases h : explode samples mode target name cursor ts with ⟨e | us, stop⟩
  · obtain ⟨-, rfl⟩ := explode_error h
    exact Nat.le_add_right stop _
  · exact (explode_le h).1

theorem rerollFrom_le {patience cursor stop : Nat} {ts us : List Throw}
    (h : rerollFrom samples condition patience true cursor ts = some (us, stop)) :
    stop ≤ cursor + ts.length := by
  induction ts generalizing cursor us with
  | nil =>
    cases h
    exact Nat.le_refl _
  | cons t ts ih =>
    obtain ⟨found, hfound, h⟩ := Option.bind_eq_some_iff.mp h
    obtain ⟨⟨rest, stop'⟩, hrest, h⟩ := Option.bind_eq_some_iff.mp h
    cases h
    have hone : found.length ≤ 1 := by
      unfold replacements at hfound
      split at hfound <;> cases hfound <;> simp
    have hstop := ih hrest
    rw [List.length_cons]
    omega

theorem reroll_le {patience : Nat} {target : Option (Target Number)} {name : String}
    {cursor stop : Nat} {ts us : List Throw}
    (h : reroll samples patience true target name cursor ts = (.ok us, stop)) :
    stop ≤ cursor + ts.length ∧ us.length + cursor = stop + ts.length := by
  have hdraws := reroll_draws h
  obtain ⟨condition, vs, hfrom, rfl⟩ := reroll_ok h
  exact ⟨rerollFrom_le hfrom, by omega⟩

theorem reroll_stop_le (patience : Nat) (target : Option (Target Number)) (name : String)
    (cursor : Nat) (ts : List Throw) :
    (reroll samples patience true target name cursor ts).2 ≤ cursor + ts.length := by
  rcases h : reroll samples patience true target name cursor ts with ⟨e | us, stop⟩
  · obtain ⟨-, rfl⟩ := reroll_error h
    exact Nat.le_add_right stop _
  · exact (reroll_le h).1

end Stage

/-- How many times as many throws a modifier leaves at most. -/
def Modifier.growth {α : Type} : Modifier α → Nat
  | .explode .. => Stage.bonusLimit + 1
  | .reroll .. => 2
  | _ => 1

namespace Play

variable {table : Table} {n : Nat} {m : Modifier Number}

theorem gives_throwStage_draws (hm : m.isCompound = false) (ts : List Throw) :
    (throwStage m ts).Gives table n fun us k => k + ts.length = n + us.length := by
  have onThrows (stage : List Entry → List Entry) (h : Stage.ofModifier? m = some stage) :
      n + ts.length = n + (Stage.onThrows stage ts).length := by
    rw [Stage.length_onThrows h]
  cases m with
  | critical condition | criticalFailure condition => simp [throwStage]
  | explode mode target =>
    have hmode : mode ≠ .compound := by
      rintro rfl
      cases hm
    rw [throwStage, gives_step]
    exact fun us stop h => Stage.explode_draws hmode h
  | reroll once target =>
    rw [throwStage, gives_step]
    exact fun us stop h => Stage.reroll_draws h
  | keep | drop | success | failure =>
    simpa [throwStage, Stage.ofModifier?] using onThrows _ rfl
  | unknown => simp [throwStage, Stage.ofModifier?]

/-- A stage ends within its growth of the throws, wherever it ends. -/
theorem throwStage_le (hm : m.isUnlimited = false) (ts : List Throw) (table : Table) (n : Nat) :
    (throwStage m ts table n).2 + ts.length ≤ n + ts.length * m.growth ∧
      (throwStage m ts).Gives table n fun us _ => us.length ≤ ts.length * m.growth := by
  have onThrows (stage : List Entry → List Entry) (h : Stage.ofModifier? m = some stage) :
      (Stage.onThrows stage ts).length ≤ ts.length := Nat.le_of_eq (Stage.length_onThrows h ts)
  cases m with
  | critical condition | criticalFailure condition => simp [throwStage, Modifier.growth]
  | explode mode target =>
    have hgrowth : ts.length * (Stage.bonusLimit + 1) = Stage.bonusLimit * ts.length + ts.length := by
      rw [Nat.mul_succ, Nat.mul_comm]
    simp only [throwStage, Modifier.growth, Modifier.name, hgrowth, ← Nat.add_assoc, gives_step]
    refine ⟨Nat.add_le_add_right (Stage.explode_stop_le mode target _ n ts) _, fun us stop h => ?_⟩
    obtain ⟨hstop, hlength⟩ := Stage.explode_le h
    omega
  | reroll once target =>
    obtain rfl : once = true := by
      cases once with
      | true => rfl
      | false => cases hm
    simp only [throwStage, Modifier.growth, Modifier.name, Nat.mul_two, ← Nat.add_assoc, gives_step]
    refine ⟨Nat.add_le_add_right (Stage.reroll_stop_le _ target _ n ts) _, fun us stop h => ?_⟩
    obtain ⟨hstop, hlength⟩ := Stage.reroll_le h
    omega
  | keep | drop | success | failure =>
    simpa [throwStage, Stage.ofModifier?, Modifier.growth] using onThrows _ rfl
  | unknown => simp [throwStage, Stage.ofModifier?, Modifier.growth]

end Play

end DiceNotation

import DiceNotation.Formula.Roll
import Mathlib.Data.List.Forall2
import Mathlib.Data.List.Induction

/-! Tags after any number of tagging modifiers. Each of them puts its tag on a face that meets its
condition, whatever tag is there, but takes away no other tag than its own; so the last condition that
a face meets has the say, and after it only a modifier with the same tag. -/

namespace DiceNotation

/-- A modifier that tags throws by a condition. -/
structure Tagging where
  tag : Crit
  condition : Target Number

namespace Tagging

def modifier : Tagging → Modifier Number
  | ⟨.success, condition⟩ => .critical condition
  | ⟨.failure, condition⟩ => .criticalFailure condition

def Meets (g : Tagging) (face : Int64) : Prop :=
  g.condition.accepts (.int face) = true

instance (g : Tagging) (face : Int64) : Decidable (g.Meets face) :=
  inferInstanceAs (Decidable (_ = true))

/-- The tag of a face after one modifier. -/
def retag (face : Int64) (old : Option Crit) (g : Tagging) : Option Crit :=
  if g.Meets face then some g.tag else if old = some g.tag then none else old

/-- The last modifier that the face meets has this tag, and none after it has the same. -/
def LastMet (gs : List Tagging) (face : Int64) (tag : Crit) : Prop :=
  ∃ before g after, gs = before ++ g :: after ∧ g.Meets face ∧ g.tag = tag ∧
    ∀ g' ∈ after, ¬ g'.Meets face ∧ g'.tag ≠ tag

/-- The face meets no modifier, and none has the tag that it had before. -/
def Untouched (gs : List Tagging) (face : Int64) (old : Option Crit) (tag : Crit) : Prop :=
  old = some tag ∧ ∀ g ∈ gs, ¬ g.Meets face ∧ g.tag ≠ tag

variable {face : Int64} {old : Option Crit} {tag : Crit}

theorem retag_eq_some_iff {g : Tagging} : g.retag face old = some tag ↔
    g.Meets face ∧ g.tag = tag ∨ (¬ g.Meets face ∧ g.tag ≠ tag) ∧ old = some tag := by
  unfold retag
  by_cases hmeets : g.Meets face
  · simp [hmeets]
  · by_cases hsame : old = some g.tag
    · simp only [hmeets, hsame, if_false, if_true, not_false_eq_true, true_and, false_and, false_or]
      exact ⟨fun h => absurd h (by simp), fun h => absurd (Option.some.inj h.2) h.1⟩
    · simp only [hmeets, hsame, if_false, not_false_eq_true, true_and, false_and, false_or]
      exact ⟨fun h => ⟨fun heq => hsame (heq ▸ h), h⟩, fun h => h.2⟩

theorem lastMet_snoc {gs : List Tagging} {g : Tagging} : LastMet (gs ++ [g]) face tag ↔
    g.Meets face ∧ g.tag = tag ∨ (¬ g.Meets face ∧ g.tag ≠ tag) ∧ LastMet gs face tag := by
  constructor
  · rintro ⟨before, last, after, hsplit, hmeets, htag, hafter⟩
    rcases List.eq_nil_or_concat after with rfl | ⟨after, final, rfl⟩
    · obtain ⟨rfl, rfl⟩ := List.append_singleton_inj.mp hsplit
      exact Or.inl ⟨hmeets, htag⟩
    · rw [List.concat_eq_append, ← List.cons_append, ← List.append_assoc] at hsplit
      obtain ⟨rfl, rfl⟩ := List.append_singleton_inj.mp hsplit
      obtain ⟨hafter, hfinal⟩ := List.forall_mem_append.mp (List.concat_eq_append ▸ hafter)
      exact Or.inr ⟨hfinal g (List.mem_singleton_self g),
        before, last, after, rfl, hmeets, htag, hafter⟩
  · rintro (⟨hmeets, htag⟩ | ⟨hlast, before, last, after, rfl, hmeets, htag, hafter⟩)
    · exact ⟨gs, g, [], rfl, hmeets, htag, List.forall_mem_nil _⟩
    · refine ⟨before, last, after ++ [g], by simp, hmeets, htag, ?_⟩
      exact List.forall_mem_append.mpr ⟨hafter, List.forall_mem_singleton.mpr hlast⟩

theorem untouched_snoc {gs : List Tagging} {g : Tagging} : Untouched (gs ++ [g]) face old tag ↔
    (¬ g.Meets face ∧ g.tag ≠ tag) ∧ Untouched gs face old tag := by
  unfold Untouched
  rw [List.forall_mem_append, List.forall_mem_singleton]
  tauto

/-- A tag is there in the end if the last modifier to meet the face put it there and none after it
took it away, or if it was there before and no modifier had to do with it. -/
theorem foldl_retag_eq_some_iff (gs : List Tagging) : gs.foldl (retag face) old = some tag ↔
    LastMet gs face tag ∨ Untouched gs face old tag := by
  induction gs using List.reverseRecOn with
  | nil => simp [LastMet, Untouched]
  | append_singleton gs g ih =>
    rw [List.foldl_concat, retag_eq_some_iff, ih, lastMet_snoc, untouched_snoc]
    tauto

end Tagging

namespace Throw

/-- Whether tagging modifiers leave the throw alone. -/
def Exempt (t : Throw) : Prop :=
  t.faces = .fate ∨ t.status.success = some true

/-- A throw after tagging modifiers. -/
structure Tagged (gs : List Tagging) (t u : Throw) : Prop where
  same : u = { t with critical := u.critical }
  exempt : t.Exempt → u.critical = t.critical
  tag : ¬ t.Exempt → ∀ tag, u.critical = some tag ↔
    Tagging.LastMet gs t.face tag ∨ Tagging.Untouched gs t.face t.critical tag

end Throw

namespace Stage

open Throw (Exempt Tagged)

variable {t : Throw}

/-- A throw after one tagging modifier upon the other. -/
def criticals (gs : List Tagging) (t : Throw) : Throw :=
  gs.foldl (fun t g => critical g.tag g.condition t) t

theorem critical_of_exempt (h : t.Exempt) (tag : Crit) (condition : Target Number) :
    critical tag condition t = t := by
  unfold critical
  split
  · rfl
  · rename_i hsuccess
    rw [h.resolve_right hsuccess]

theorem critical_of_not_exempt (h : ¬ t.Exempt) (g : Tagging) :
    critical g.tag g.condition t = { t with critical := g.retag t.face t.critical } := by
  obtain ⟨hfaces, hsuccess⟩ := not_or.mp h
  unfold critical Tagging.retag
  rw [if_neg hsuccess]
  split
  · rename_i hfate
    exact absurd hfate hfaces
  · by_cases hmeets : g.Meets t.face
    · have haccepts : g.condition.accepts (.int t.face) = true := hmeets
      rw [if_pos haccepts, if_pos hmeets]
    · have hrefused : ¬ g.condition.accepts (.int t.face) = true := hmeets
      rw [if_neg hrefused, if_neg hmeets]
      split <;> rfl

theorem criticals_of_exempt (h : t.Exempt) (gs : List Tagging) : criticals gs t = t := by
  induction gs with
  | nil => rfl
  | cons g gs ih =>
    rw [criticals, List.foldl_cons, critical_of_exempt h]
    exact ih

theorem criticals_of_not_exempt (h : ¬ t.Exempt) (gs : List Tagging) :
    criticals gs t = { t with critical := gs.foldl (Tagging.retag t.face) t.critical } := by
  induction gs generalizing t with
  | nil => rfl
  | cons g gs ih =>
    rw [criticals, List.foldl_cons, critical_of_not_exempt h]
    exact ih h

theorem tagged_criticals (gs : List Tagging) (t : Throw) : t.Tagged gs (criticals gs t) := by
  by_cases h : t.Exempt
  · rw [criticals_of_exempt h]
    exact ⟨rfl, fun _ => rfl, fun hnot => absurd h hnot⟩
  · rw [criticals_of_not_exempt h]
    exact ⟨rfl, fun hexempt => absurd hexempt h, fun _ _ => Tagging.foldl_retag_eq_some_iff gs⟩

/-- A sixteen is a success only. A nineteen is one first and then a failure, and a one stops being the
failure that it was thrown as. -/
example : [16, 19, 1].map (fun face => (criticals [⟨.success, ⟨.atLeast, .int 15⟩⟩,
    ⟨.failure, ⟨.atLeast, .int 18⟩⟩] (.fresh (.sides 20) face 0)).critical) =
    [some .success, some .failure, none] := by
  decide +kernel

end Stage

namespace Play

open Stage

/-- Modifiers of a die, done one after the other. -/
def throwStages (ms : List (Modifier Number)) (ts : List Throw) : Play (List Throw) :=
  ms.foldlM (fun ts m => throwStage m ts) ts

/-- They are what rolls do once the arguments of the modifiers are known. -/
theorem rollMods_eq_throwStages {ms : List (Modifier Formula)} {ms' : List (Modifier Number)}
    (h : List.Forall₂ (fun m m' => rollModifier m = Pure.pure m') ms ms')
    (ts : List Throw) : rollMods ms ts = throwStages ms' ts := by
  induction h generalizing ts with
  | nil => rfl
  | cons hm _ ih =>
    rw [rollMods, hm, pure_bind, throwStages, List.foldlM_cons]
    exact congrArg (throwStage _ ts >>= ·) (funext ih)

theorem throwStage_tagging (g : Tagging) (ts : List Throw) :
    throwStage g.modifier ts = Pure.pure (ts.map (critical g.tag g.condition)) := by
  obtain ⟨tag, condition⟩ := g
  cases tag <;> rfl

theorem throwStages_tagging_eq (gs : List Tagging) (ts : List Throw) :
    throwStages (gs.map Tagging.modifier) ts = Pure.pure (ts.map (criticals gs)) := by
  induction gs generalizing ts with
  | nil => exact congrArg Pure.pure (List.map_id ts).symm
  | cons g gs ih =>
    rw [throwStages, List.map_cons, List.foldlM_cons, throwStage_tagging, pure_bind]
    exact (ih _).trans (congrArg Pure.pure List.map_map)

/-- Tagging modifiers draw nothing and change nothing but tags. Fate dice and successes keep theirs; any
other throw ends with a tag that the last modifier it meets has put there and none after it took away,
or with the one that it had if no modifier touches it, and else with none. -/
theorem throwStages_tagging (gs : List Tagging) (ts : List Throw) (table : Table) (n : Nat) :
    ∃ us, throwStages (gs.map Tagging.modifier) ts table n = (.ok us, n) ∧
      List.Forall₂ (Throw.Tagged gs) ts us := by
  refine ⟨ts.map (criticals gs), by rw [throwStages_tagging_eq, pure_run], ?_⟩
  exact List.forall₂_map_right_iff.mpr (List.forall₂_same.mpr fun t _ => tagged_criticals gs t)

end Play

end DiceNotation

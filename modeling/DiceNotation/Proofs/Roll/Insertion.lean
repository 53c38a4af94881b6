import DiceNotation.Proofs.Roll.Grouping
import DiceNotation.Proofs.Roll.Orderly
import DiceNotation.Proofs.Stage.Idle

/-! Modifiers that drop nothing, put anywhere among the others. Entries in rising order come out of
such a modifier as they went into it, so the roll goes on as it would have without it. Throws of one
die and members of a group are in rising order. The pool of a sum of dice need not be: its throws
have the orders of their own dice, and to put them in order may move equal throws past each other. -/

namespace DiceNotation

open Play Stage

namespace Formula

/-- The formula with other modifiers on its die or its group. -/
def withModifiers : Formula → List (Modifier Formula) → Formula
  | ⟨.die d, label⟩, ms => ⟨.die { d with mods := ms }, label⟩
  | ⟨.group first others _, label⟩, ms => ⟨.group first others ms, label⟩
  | f, _ => f

/-- The entries that a modifier of the die or the group meets after others. -/
def entriesAfter : Formula → List (Modifier Formula) → Play (List Entry)
  | ⟨.die d, _⟩, ms => (fun r => Entry.ofThrows r.2.2) <$> Die.thrown d.count d.faces ms
  | ⟨.group first others _, _⟩, ms =>
    rollGroupMembers first others >>= fun members =>
      rollGroupMods ms (Entry.ofStatuses (Outcome.entries members))
  | _, _ => return []

def sumsDice : Formula → Bool
  | ⟨.diceSum .., _⟩ => true
  | ⟨.inline inner, _⟩ => inner.sumsDice
  | _ => false

/-- Whether the formula is a group on the pool of a sum of dice. -/
def poolsSum : Formula → Bool
  | ⟨.group first [] _, _⟩ => first.sumsDice
  | _ => false

end Formula

def Outcome.isDiceSum (o : Outcome) : Bool :=
  match o.body with
  | .diceSum .. => true
  | _ => false

theorem Outcome.isDiceSum_relabel (o : Outcome) (label : Option String) :
    (o.relabel label).isDiceSum = o.isDiceSum := by
  cases label <;> rfl

@[simp] theorem Outcome.isDiceSum_ofDie (count : Outcome) (faces : Option Outcome)
    (hasTargets : Bool) (matching : Option (Matching Number)) (sorting : Option Sorting)
    (ts : List Throw) : (ofDie count faces hasTargets matching sorting ts).isDiceSum = false :=
  rfl

@[simp] theorem Outcome.isDiceSum_ofMembers (members : List Outcome) :
    (ofMembers members).isDiceSum = false :=
  rfl

@[simp] theorem Outcome.isDiceSum_ofGroup (members : List Outcome) (hasTargets : Bool)
    (ss : List Status) : (ofGroup members hasTargets ss).isDiceSum = false := by
  unfold ofGroup
  cases hasTargets <;> rfl

theorem Modifier.Idle.isForGroups_eq {size : Nat} {m : Modifier Number} (h : m.Idle size) :
    m.isForGroups = true := by
  cases h <;> rfl

variable {table : Table} {n : Nat}

section Entries

/-- Only sums of dice, in brackets or not, come out as sums of dice. -/
theorem gives_roll_diceSum (f : Formula) :
    f.roll.Gives table n fun o _ => o.isDiceSum = true → f.sumsDice = true := by
  induction f using Nested.induct generalizing n with
  | step f ih =>
    obtain ⟨shape, label⟩ := f
    simp only [Formula.roll, bind_pure_comp, gives_map, Outcome.isDiceSum_relabel]
    cases shape with
    | diceSum head tail => exact (gives_trivial _).mono fun _ _ _ _ => rfl
    | inline inner =>
      rw [Shape.roll]
      exact ih inner (List.mem_append_left _ List.mem_cons_self)
    | number | arithmetic | function | replacement =>
      simp [Shape.roll, Outcome.isDiceSum, Outcome.number, Outcome.bare, gives_trivial]
    | die d => simp [roll_die, gives_trivial]
    | group first others mods =>
      simp only [Shape.roll, bind_pure_comp, gives_bind]
      refine (gives_trivial _).mono fun o k _ => (gives_trivial _).mono fun os k _ => ?_
      split <;> simp [gives_trivial]
    | unknown => simp [Shape.roll]

/-- Members tell where they stand, and a lone one is a sum of dice only if its formula is. -/
theorem gives_rollGroupMembers (first : Formula) (others : List Formula) :
    (rollGroupMembers first others).Gives table n fun members _ =>
      members.map (fun o => o.status.order) = List.range members.length ∧
      (∀ o ∈ members, o.Sound False) ∧
      ∀ o, members = [o] → o.isDiceSum = true → others = [] ∧ first.sumsDice = true := by
  have hsound (f : Formula) (n : Nat) :
      f.roll.Gives table n fun o _ => o.status.order = 0 ∧ o.Sound False :=
    rolls_sound f (fun hf => hf.elim) n
  simp only [rollGroupMembers, bind_pure_comp, gives_bind, gives_map]
  refine ((hsound first n).and (gives_roll_diceSum first)).mono fun o k ho => ?_
  refine (gives_rollMembers (fun f _ n => hsound f n) 1).mono fun os k hos => ?_
  obtain ⟨ps, hps, rfl⟩ := hos
  refine ⟨?_, List.forall_mem_cons.mpr ⟨ho.1.2, sound_of_rolled hps 1⟩, fun p hp hsum => ?_⟩
  · rw [List.map_cons, ho.1.1, Outcome.map_order_placeFrom, List.length_cons,
      Outcome.length_placeFrom, List.range_eq_range', List.range'_succ]
  · obtain ⟨rfl, hnone⟩ := List.cons.inj hp
    refine ⟨?_, ho.2 hsum⟩
    cases hps with
    | nil => rfl
    | cons _ _ => cases hnone

theorem map_order_ofStatuses (ss : List Status) :
    (Entry.ofStatuses ss).map (fun e => e.status.order) = ss.map Status.order :=
  calc (Entry.ofStatuses ss).map (fun e => e.status.order)
      = ((Entry.ofStatuses ss).map Entry.status).map Status.order := by rw [List.map_map]; rfl
    _ = ss.map Status.order := by rw [Entry.map_status_ofStatuses]

theorem rising_ofStatuses {ss : List Status} (h : ss.map Status.order = List.range ss.length) :
    Entry.Rising (Entry.ofStatuses ss) := by
  rw [Entry.Rising, ← List.pairwise_map, map_order_ofStatuses, h]
  exact List.pairwise_lt_range

/-- The entries of a group are in rising order, unless they are the pool of a sum of dice. -/
theorem rising_entries {members : List Outcome}
    (horder : members.map (fun o => o.status.order) = List.range members.length)
    (hsound : ∀ o ∈ members, o.Sound False) (hsum : ∀ o, members = [o] → o.isDiceSum = false) :
    Entry.Rising (Entry.ofStatuses (Outcome.entries members)) := by
  refine rising_ofStatuses ?_
  unfold Outcome.entries
  split
  · rename_i o hpool
    obtain ⟨rfl, hdice⟩ := Outcome.eq_of_pooled? hpool
    have horderly := ((Outcome.sound_iff o).mp (hsound o List.mem_cons_self)).1.1
    have hsum := hsum o rfl
    obtain ⟨status, body, label⟩ := o
    cases body with
    | die count faces throws =>
      have hline : InLine throws := horderly.1
      simp only [Outcome.pool, List.map_map, List.length_map]
      exact hline
    | diceSum head tail => cases hsum
    | number | arithmetic | group | function | replacement => cases hdice
  · rw [List.map_map, List.length_map]
    exact horder

end Entries

section Die

variable {count : Formula} {faces : Faces Formula} {ms ms' : List (Modifier Formula)}
  {m : Modifier Formula}

theorem rollMods_idle (hliteral : ∀ a ∈ m.arguments, a.IsLiteral) {ts : List Throw}
    (hline : InLine ts) (hidle : (m.map Formula.literal).Idle ts.length) :
    rollMods (m :: ms') ts = rollMods ms' ts := by
  have hm' : (m.map Formula.literal).isForGroups = true := hidle.isForGroups_eq
  have hm : m.isForGroups = true := (isForGroups_map _ m).symm.trans hm'
  have hlength : (Entry.ofThrows ts).length = ts.length := by simp [Entry.ofThrows]
  rw [rollMods, rollModifier_of_isLiteral hm hliteral, pure_bind, throwStage_of_isForGroups hm' hline,
    pure_bind, apply_idle (hlength ▸ hidle) (rising_ofThrows hline), Entry.map_status_ofThrows,
    Throw.restamp_self]

theorem thrown_insert (hliteral : ∀ a ∈ m.arguments, a.IsLiteral)
    (hidle : (Die.thrown count faces ms).Gives table n fun r _ =>
      (m.map Formula.literal).Idle r.2.2.length) :
    Die.thrown count faces (ms ++ m :: ms') table n = Die.thrown count faces (ms ++ ms') table n := by
  rw [thrown_append, thrown_append]
  refine bind_eq_of_gives ((gives_thrown_inLine.and hidle).mono fun r k hr => ?_)
  rw [rollMods_idle hliteral hr.1 hr.2]

end Die

section Group

variable {first : Formula} {others : List Formula} {ms ms' : List (Modifier Formula)}
  {m : Modifier Formula}

theorem any_isTarget_insert (h : m.isTarget = false) :
    (ms ++ m :: ms').any Modifier.isTarget = (ms ++ ms').any Modifier.isTarget := by
  simp [h]

theorem rollGroupStages_idle (hliteral : ∀ a ∈ m.arguments, a.IsLiteral) {size : Nat}
    (hidle : (m.map Formula.literal).Idle size) :
    rollGroupStages (m :: ms') = (m.map Formula.literal :: ·) <$> rollGroupStages ms' := by
  have hm : m.isForGroups = true := (isForGroups_map _ m).symm.trans hidle.isForGroups_eq
  rw [rollGroupStages, hm, if_neg (by simp), rollModifier_of_isLiteral hm hliteral, pure_bind,
    bind_pure_comp]

/-- What the stages of a group leave is the same with an idle one among them. -/
theorem map_rollGroupStages_insert {α : Type} (hliteral : ∀ a ∈ m.arguments, a.IsLiteral)
    {es : List Entry} (hes : Entry.Rising es)
    (hidle : (rollGroupMods ms es).Gives table n fun es' _ =>
      (m.map Formula.literal).Idle es'.length) (g : Bool → List Entry → α) :
    ((fun ls => g ((ms ++ m :: ms').any Modifier.isTarget) (through ls es)) <$>
        rollGroupStages (ms ++ m :: ms')) table n =
      ((fun ls => g ((ms ++ ms').any Modifier.isTarget) (through ls es)) <$>
        rollGroupStages (ms ++ ms')) table n := by
  rw [rollGroupMods_eq, gives_map] at hidle
  rw [rollGroupStages_append, rollGroupStages_append, map_bind, map_bind]
  refine bind_eq_of_gives (hidle.mono fun ls k hidle => ?_)
  have hlength : (through ls es).length = es.length := (forall₂_through ls hes).length_eq.symm
  have htarget : m.isTarget = false := (m.isTarget_map _).symm.trans hidle.isTarget_eq
  rw [any_isTarget_insert htarget, rollGroupStages_idle hliteral hidle]
  simp only [Functor.map_map, through_insert (hlength ▸ hidle) hes]

end Group

/-- A modifier that drops nothing changes nothing, wherever it stands. -/
theorem roll_insert_idle {f : Formula} {ms ms' : List (Modifier Formula)} {m : Modifier Formula}
    (hliteral : ∀ a ∈ m.arguments, a.IsLiteral)
    (hidle : (f.entriesAfter ms).Gives table n fun es _ => (m.map Formula.literal).Idle es.length)
    (hne : f.isDie = false → ms ++ ms' ≠ [])
    (horder : f.poolsSum = true → (f.entriesAfter []).Gives table n fun es _ => Entry.Rising es) :
    (f.withModifiers (ms ++ m :: ms')).roll table n = (f.withModifiers (ms ++ ms')).roll table n := by
  obtain ⟨shape, label⟩ := f
  cases shape with
  | die d =>
    simp only [Formula.entriesAfter, gives_map] at hidle
    have hthrown : Die.thrown d.count d.faces (ms ++ m :: ms') table n =
        Die.thrown d.count d.faces (ms ++ ms') table n :=
      thrown_insert hliteral (hidle.mono fun r k hr => by simpa [Entry.ofThrows] using hr)
    simp only [Formula.withModifiers, roll_die_eq_thrown, bind_run, hthrown]
  | group first others mods =>
    have hne : ms ++ ms' ≠ [] := hne rfl
    simp only [Formula.entriesAfter, gives_bind] at hidle horder
    simp only [Formula.withModifiers, Formula.roll]
    rw [roll_group hne, roll_group (by simp)]
    simp only [bind_pure_comp, map_bind, Functor.map_map]
    refine bind_eq_of_gives ?_
    intro members k hrun
    obtain ⟨hplaces, hsound, hsum⟩ := gives_rollGroupMembers first others members k hrun
    have hrising : Entry.Rising (Entry.ofStatuses (Outcome.entries members)) := by
      by_cases hpool : Formula.poolsSum ⟨.group first others mods, label⟩ = true
      · simpa [rollGroupMods] using horder hpool members k hrun
      · refine rising_entries hplaces hsound fun o ho => ?_
        rw [Bool.eq_false_iff]
        intro hdice
        obtain ⟨rfl, hfirst⟩ := hsum o ho hdice
        exact hpool hfirst
    exact map_rollGroupStages_insert hliteral hrising (hidle members k hrun) fun hasTargets es =>
      (Outcome.ofGroup members hasTargets (Entry.statuses es)).relabel label
  | _ => rfl

/-- Three dice, of which one explodes: to keep four of them keeps them all, and changes nothing for
the stages behind it. -/
theorem roll_insert_idle_keep :
    ((Formula.die (.plain (.int 3) (.sides (.int 6)))).withModifiers
      ([.explode .explode none] ++ .keep .high (.int 4) :: [.drop .low (.int 1)])).roll
        (.ofSamples fun i => if i = 0 then 0.9 else 0.5) 0 =
    ((Formula.die (.plain (.int 3) (.sides (.int 6)))).withModifiers
      ([.explode .explode none] ++ [.drop .low (.int 1)])).roll
        (.ofSamples fun i => if i = 0 then 0.9 else 0.5) 0 := by
  refine roll_insert_idle ?_ ?_ ?_ ?_
  · simp [Formula.IsLiteral, Formula.int, Formula.number, Formula.bare]
  · intro es k hrun
    have hfour := forall_of_all (P := fun es : List Entry => decide (es.length ≤ 4))
      (by decide +kernel) es k hrun
    exact .keep .high (of_decide_eq_true hfour)
  · simp [Formula.die, Formula.bare]
  · simp [Formula.poolsSum, Formula.die, Formula.bare]

/-- Three equal throws of two dice, of which two are dropped. To keep all three before puts the
first throw of the second die in front of the second throw of the first one, which then stays. -/
theorem roll_insert_idle_pool_differs :
    ((Formula.bare (.group (.bare (.diceSum (.die (.plain (.int 2) (.sides (.int 6))))
      [(.plus, .die (.plain (.int 1) (.sides (.int 6))))])) [] [.drop .low (.int 2)])).roll
        (.ofSamples fun _ => 0.5) 0).1.toOption.map
          (fun o => (Outcome.entries o.operands).map Status.valid) = some [false, false, true] ∧
    ((Formula.bare (.group (.bare (.diceSum (.die (.plain (.int 2) (.sides (.int 6))))
      [(.plus, .die (.plain (.int 1) (.sides (.int 6))))])) []
        [.keep .high (.int 3), .drop .low (.int 2)])).roll
        (.ofSamples fun _ => 0.5) 0).1.toOption.map
          (fun o => (Outcome.entries o.operands).map Status.valid) = some [false, true, false] := by
  decide +kernel

end DiceNotation

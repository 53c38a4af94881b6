import DiceNotation.Proofs.Roll.Flattening

/-! A group as its members and its stages. What the modifiers of a group roll for themselves does not
hang on the entries, so a group rolls its members, then all arguments of its modifiers, and only then
do its entries go through the stages. -/

namespace DiceNotation

open Play Stage

namespace Play

variable {α β : Type} {t : Table} {n : Nat}

/-- Two ways to go on are the same where they agree on every result. -/
theorem bind_eq_of_gives {p : Play α} {f g : α → Play β}
    (h : p.Gives t n fun a m => f a t m = g a t m) : (p >>= f) t n = (p >>= g) t n := by
  rcases hp : p t n with ⟨e | a, m⟩
  · rw [bind_error hp, bind_error hp]
  · rw [bind_ok hp, bind_ok hp, h a m hp]

theorem exists_of_bind_ok {p : Play α} {f : α → Play β} {b : β} {m : Nat}
    (h : (p >>= f) t n = (.ok b, m)) : ∃ a k, p t n = (.ok a, k) ∧ f a t k = (.ok b, m) := by
  rcases hp : p t n with ⟨e | a, k⟩
  · rw [bind_error hp] at h
    cases h
  · rw [bind_ok hp] at h
    exact ⟨a, k, rfl, h⟩

theorem exists_of_map_ok {p : Play α} {f : α → β} {b : β} {m : Nat}
    (h : (f <$> p) t n = (.ok b, m)) : ∃ a, p t n = (.ok a, m) ∧ f a = b := by
  rw [map_eq_pure_bind] at h
  obtain ⟨a, k, hp, hpure⟩ := exists_of_bind_ok h
  cases hpure
  exact ⟨a, hp, rfl⟩

end Play

theorem isForGroups_of_kind {m : Modifier Formula} {m' : Modifier Number} (h : m'.kind = m.kind) :
    m'.isForGroups = m.isForGroups := by
  rw [← isForGroups_map (fun _ => ()) m', ← isForGroups_map (fun _ => ()) m]
  exact congrArg Modifier.isForGroups h

def rollGroupMembers (first : Formula) (others : List Formula) : Play (List Outcome) := do
  let first ← first.roll
  return first :: (← rollMembers others 1)

theorem rollGroupMembers_nil (f : Formula) : rollGroupMembers f [] = (fun o => [o]) <$> f.roll := by
  simp [rollGroupMembers, rollMembers]

/-- The modifiers of a group with what their arguments came to, unless there is one among them that
no group knows. -/
def rollGroupStages : List (Modifier Formula) → Play (List (Modifier Number))
  | [] => return []
  | m :: ms => do
    if !m.isForGroups then Play.fault (.unknownModifier m.name "group")
    else
      let m ← rollModifier m
      return m :: (← rollGroupStages ms)

section Stages

variable {mods : List (Modifier Formula)}

theorem rollGroupMods_eq (mods : List (Modifier Formula)) (es : List Entry) :
    rollGroupMods mods es = (fun ms => through ms es) <$> rollGroupStages mods := by
  induction mods generalizing es with
  | nil => rfl
  | cons m mods ih =>
    rw [rollGroupMods, rollGroupStages]
    cases hm : m.isForGroups with
    | false => rfl
    | true =>
      funext t n
      simp only [Bool.not_true, Bool.false_eq_true, if_false, bind_pure_comp, map_bind,
        Functor.map_map, through_cons]
      refine bind_eq_of_gives ((gives_rollModifier_kind m).mono fun m' k hkind => ?_)
      rw [entryStage_of_isForGroups ((isForGroups_of_kind hkind).trans hm), pure_bind, ih]

theorem rollGroupStages_append (ms ms' : List (Modifier Formula)) :
    rollGroupStages (ms ++ ms') =
      rollGroupStages ms >>= fun ls => (ls ++ ·) <$> rollGroupStages ms' := by
  induction ms with
  | nil => simp [rollGroupStages]
  | cons m ms ih =>
    rw [List.cons_append, rollGroupStages, rollGroupStages, ih]
    split
    · rfl
    · simp only [bind_pure_comp, bind_assoc, map_bind, bind_map_left, Functor.map_map,
        List.cons_append]

/-- Rolling the modifiers of a group rolls their arguments, and leaves their kinds. -/
theorem gives_rollGroupStages_kind {table : Table} {n : Nat} (mods : List (Modifier Formula)) :
    (rollGroupStages mods).Gives table n fun ms _ =>
      ms.map Modifier.kind = mods.map Modifier.kind := by
  induction mods generalizing n with
  | nil => simp [rollGroupStages]
  | cons m mods ih =>
    rw [rollGroupStages]
    split
    · simp
    · simp only [bind_pure_comp, gives_bind, gives_map]
      refine (gives_rollModifier_kind m).mono fun m' k hkind => ih.mono fun ms k hms => ?_
      rw [List.map_cons, List.map_cons, hkind, hms]

/-- A group with modifiers, from its members and from what its modifiers came to. -/
theorem roll_group (hne : mods ≠ []) (first : Formula) (others : List Formula) :
    Shape.roll (.group first others mods) = rollGroupMembers first others >>= fun members =>
      (fun ms => Outcome.ofGroup members (mods.any Modifier.isTarget)
        (Entry.statuses (through ms (Entry.ofStatuses (Outcome.entries members))))) <$>
          rollGroupStages mods := by
  have hempty : mods.isEmpty = false := by simpa using hne
  simp only [Shape.roll, rollGroupMembers, hempty, Bool.false_eq_true, if_false, rollGroupMods_eq,
    bind_pure_comp, bind_assoc, bind_map_left, Functor.map_map]

end Stages

end DiceNotation

import DiceNotation.Proofs.Roll.Rolled
import DiceNotation.Proofs.Stage.Throwing

/-! Lists of modifiers. Rolling a modifier turns its arguments into numbers and leaves its kind, so
what a list of modifiers does is known from the kinds in it. -/

namespace DiceNotation

variable {table : Table} {n : Nat}

theorem gives_rollModifier_kind (m : Modifier Formula) :
    (rollModifier m).Gives table n fun m' _ => m'.kind = m.kind :=
  (gives_rollModifier (Q := fun _ _ _ _ => True) fun _ _ _ => Play.gives_trivial _).mono
    fun _ _ h => h.1

theorem rollMods_append (ms ms' : List (Modifier Formula)) (ts : List Throw) :
    rollMods (ms ++ ms') ts = rollMods ms ts >>= rollMods ms' := by
  induction ms generalizing ts with
  | nil => simp [rollMods]
  | cons m ms ih => simp only [List.cons_append, rollMods, bind_assoc, ih]

/-- The modifiers of a die and then its targets are one list that its throws go through. -/
theorem roll_die (d : Die Formula) :
    Shape.roll (.die d) = d.count.roll >>= fun count =>
      Play.throwCount count.value >>= fun size =>
      rollFaces d.faces >>= fun r =>
      (Play.throwMany r.2 size >>= rollMods (d.mods ++ d.targets)) >>= fun throws =>
      (fun matching => Outcome.ofDie count r.1 (!d.targets.isEmpty) matching d.sorting throws) <$>
        rollMatching d.matching := by
  simp only [Shape.roll, bind_pure_comp, bind_assoc, rollMods_append]

theorem gives_rollMods {P : Throw → Prop} {mods : List (Modifier Formula)}
    (hP : ∀ m ∈ mods, ∀ m' : Modifier Number, m'.kind = m.kind → Throw.Invariant m' P)
    {ts : List Throw} (hts : ∀ t ∈ ts, P t) :
    (rollMods mods ts).Gives table n fun us _ => ∀ u ∈ us, P u := by
  induction mods generalizing ts n with
  | nil => simpa [rollMods] using hts
  | cons m mods ih =>
    simp only [rollMods, Play.gives_bind]
    refine (gives_rollModifier_kind m).mono fun m' k hkind => ?_
    refine (Play.gives_throwStage (hP m List.mem_cons_self m' hkind) hts).mono fun us k hus => ?_
    exact ih (fun m hm => hP m (List.mem_cons_of_mem _ hm)) hus

theorem gives_rollMods_inLine (mods : List (Modifier Formula)) {ts : List Throw}
    (hts : Stage.InLine ts) : (rollMods mods ts).Gives table n fun us _ => Stage.InLine us := by
  induction mods generalizing ts n with
  | nil => simpa [rollMods] using hts
  | cons m mods ih =>
    simp only [rollMods, Play.gives_bind]
    refine (Play.gives_trivial _).mono fun m' k _ => ?_
    exact (Play.gives_throwStage_inLine hts).mono fun us k hus => ih hus

/-- The modifiers of a group mark statuses, whatever they roll for themselves. -/
theorem gives_rollGroupMods (mods : List (Modifier Formula)) (es : List Entry) :
    (rollGroupMods mods es).Gives table n fun es' _ => Entry.Moved true es es' := by
  induction mods generalizing es n with
  | nil => simpa [rollGroupMods] using Entry.Moved.of_perm (.refl es)
  | cons m mods ih =>
    rw [rollGroupMods]
    split
    · simp
    · simp only [Play.gives_bind]
      refine (Play.gives_trivial _).mono fun m' k _ => ?_
      unfold Play.entryStage
      split
      · rename_i stage hstage
        have hmoved := (Stage.moved_of_ofModifier? hstage es).toCounting
        rw [Play.gives_pure]
        exact (ih (stage es)).mono fun es' _ h => hmoved.trans h
      · simp

theorem gives_rollGroupMods_marks (mods : List (Modifier Formula)) (ss : List Status) :
    (rollGroupMods mods (Entry.ofStatuses ss)).Gives table n fun es _ =>
      List.Forall₂ (Status.Marks true) ss (Entry.statuses es) := by
  refine (gives_rollGroupMods mods _).mono fun es _ h => ?_
  have hmarks := Entry.statuses_of_moved h (Entry.pairwise_place_ofStatuses ss)
  rwa [Entry.map_status_ofStatuses] at hmarks

end DiceNotation

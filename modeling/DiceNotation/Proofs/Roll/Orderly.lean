import DiceNotation.Proofs.Chance.Bounds
import DiceNotation.Proofs.Formula.Parts
import DiceNotation.Proofs.Outcome.Orderly
import DiceNotation.Proofs.Roll.Modifiers

/-! Every outcome is in order: whatever formula is rolled, at whatever table, each throw and each
member tells where it stands, each die throws one kind of faces, and a throw is valid until it is
dropped or thrown again. Without compound explosions every throw also shows a face of its die. -/

namespace DiceNotation

open Play Nested

namespace Throw

theorem onFace_draw (faces : Faces Int64) (sample : Float) (order : Nat) :
    (fresh faces (faces.ofSample sample) order).OnFace := by
  cases faces with
  | fate => exact Faces.ofSample_fate sample
  | sides count => exact fun h => Faces.stretch_bounds sample h

/-- No modifier makes throws of another kind, or takes a throw away without an account of it. -/
theorem invariant_accounted (m : Modifier Number) (faces : Faces Int64) :
    Invariant m fun t => t.faces = faces ∧ t.Accounted where
  step t u h ht := by
    cases h with
    | mark h => exact ⟨ht.1, accounted_mark h ht.2⟩
    | reroll h => exact ⟨ht.1, accounted_discarded h ht.2⟩
    | place | tag | explode | compound | penetrate => exact ht
  fresh t sample ht := ⟨ht.1, by simp [Accounted, valid, Throw.fresh, Status.ofValue]⟩

theorem invariant_onFace {m : Modifier Number} (hm : m.isCompound = false) :
    Invariant m OnFace where
  step t u h ht := by
    cases h with
    | compound => simp [Modifier.isCompound] at hm
    | mark | reroll | place | tag | explode | penetrate => exact ht
  fresh t sample _ := onFace_draw t.faces sample 0

end Throw

variable {table : Table} {faced : Prop}

/-- What rolling gives of one formula, wherever the source stands. -/
def Formula.RollsSound (table : Table) (faced : Prop) (f : Formula) : Prop :=
  ∀ n, f.roll.Gives table n fun o _ => o.status.order = 0 ∧ o.Sound faced

open Formula (RollsSound)

theorem gives_rollMods_sound {mods : List (Modifier Formula)} {faces : Faces Int64} {n : Nat}
    (hmods : faced → ∀ m ∈ mods, m.isCompound = false) {ts : List Throw}
    (hts : ∀ t ∈ ts, (t.faces = faces ∧ t.Accounted) ∧ (faced → t.OnFace)) :
    (rollMods mods ts).Gives table n fun us _ =>
      ∀ u ∈ us, (u.faces = faces ∧ u.Accounted) ∧ (faced → u.OnFace) := by
  refine gives_rollMods (fun m hm m' hkind => ?_) hts
  have hcompound (hf : faced) : m'.isCompound = false := by
    rw [← m'.isCompound_kind, hkind, m.isCompound_kind]
    exact hmods hf m hm
  exact (Throw.invariant_accounted m' faces).and
    ⟨fun t u h ht hf => (Throw.invariant_onFace (hcompound hf)).step t u h (ht hf),
      fun t sample ht hf => (Throw.invariant_onFace (hcompound hf)).fresh t sample (ht hf)⟩

theorem sound_of_rolled {fs : List Formula} {os : List Outcome} {n m : Nat}
    (h : Rolled (fun _ _ o _ => o.status.order = 0 ∧ o.Sound faced) fs n os m) (order : Nat) :
    ∀ o ∈ Outcome.placeFrom order os, o.Sound faced := by
  induction h generalizing order with
  | nil => exact List.forall_mem_nil _
  | cons first _ ih =>
    exact List.forall_mem_cons.mpr ⟨Outcome.sound_of_body first.2 rfl, ih (order + 1)⟩

theorem map_order_tail {ω : Type} {tail : List (ω × Outcome)} {os : List Outcome}
    (h : tail.map Prod.snd = Outcome.placeFrom 1 os) :
    tail.map (fun t => t.2.status.order) = List.range' 1 tail.length := by
  have hlength : tail.length = os.length := by
    rw [← Outcome.length_placeFrom 1 os, ← h, List.length_map]
  calc tail.map (fun t => t.2.status.order)
      = (tail.map Prod.snd).map (fun o => o.status.order) := by rw [List.map_map]; rfl
    _ = List.range' 1 tail.length := by rw [h, Outcome.map_order_placeFrom, hlength]

/-- What is rolled after the head of a sum stands in its places, and is sound. -/
theorem sound_tail {ω : Type} {fs : List Formula} {os : List Outcome} {n m : Nat}
    {tail : List (ω × Outcome)}
    (h : Rolled (fun _ _ o _ => o.status.order = 0 ∧ o.Sound faced) fs n os m)
    (htail : tail.map Prod.snd = Outcome.placeFrom 1 os) :
    tail.map (fun t => t.2.status.order) = List.range' 1 tail.length ∧
      ∀ o ∈ tail.map Prod.snd, o.Sound faced := by
  have hsound := sound_of_rolled h 1
  rw [← htail] at hsound
  exact ⟨map_order_tail htail, hsound⟩

theorem gives_rollFaces_sound {faces : Faces Formula}
    (h : ∀ f ∈ faces.arguments, RollsSound table faced f) (n : Nat) :
    (rollFaces faces).Gives table n fun r _ =>
      (∀ o ∈ r.1, o.Sound faced) ∧ r.2 = Outcome.facesOf r.1 := by
  cases faces with
  | fate => simp [rollFaces, Outcome.facesOf]
  | sides count =>
    simp only [rollFaces, bind_pure_comp, gives_bind, gives_map]
    refine (h count List.mem_cons_self n).mono fun o m ho => ?_
    unfold sidesOf
    split
    · simp
    · simpa [Outcome.facesOf] using ho.2

/-- A label changes neither the order of an outcome nor its parts. -/
theorem rollsSound_of_shape {shape : Shape} {label : Option String}
    (h : ∀ n, shape.roll.Gives table n fun o _ => o.status.order = 0 ∧ o.Sound faced) :
    RollsSound table faced ⟨shape, label⟩ := by
  intro n
  simp only [Formula.roll, bind_pure_comp, gives_map]
  refine (h n).mono fun o m ho => ⟨?_, Outcome.sound_relabel ho.2 label⟩
  rw [Outcome.status_relabel, ho.1]

theorem rollsSound_die {d : Die Formula} {label : Option String}
    (hmods : faced → ∀ m ∈ d.mods ++ d.targets, m.isCompound = false)
    (hcount : RollsSound table faced d.count)
    (hfaces : ∀ f ∈ d.faces.arguments, RollsSound table faced f) :
    RollsSound table faced ⟨.die d, label⟩ := by
  refine rollsSound_of_shape fun n => ?_
  simp only [Shape.roll, bind_pure_comp, gives_bind, gives_map]
  refine (hcount n).mono fun count k hcount => ?_
  refine (gives_trivial _).mono fun size k _ => ?_
  refine (gives_rollFaces_sound hfaces k).mono fun r k hsides => ?_
  obtain ⟨sides, faces⟩ := r
  obtain rfl : faces = Outcome.facesOf sides := hsides.2
  rw [gives_throwMany]
  have hdrawn : ∀ t ∈ Throw.drawMany table.samples k (Outcome.facesOf sides) size,
      (t.faces = Outcome.facesOf sides ∧ t.Accounted) ∧ (faced → t.OnFace) := by
    refine List.forall_mem_map.mpr fun i _ => ⟨⟨rfl, ?_⟩, fun _ => Throw.onFace_draw _ _ i⟩
    simp [Throw.Accounted, Throw.valid, Throw.draw, Throw.fresh, Status.ofValue]
  have hline : Stage.InLine (Throw.drawMany table.samples k (Outcome.facesOf sides) size) :=
    Stage.inLine_drawMany k _ size
  obtain ⟨hmods, htargets⟩ : (faced → ∀ m ∈ d.mods, m.isCompound = false) ∧
      (faced → ∀ m ∈ d.targets, m.isCompound = false) :=
    ⟨fun hf m hm => hmods hf m (List.mem_append_left _ hm),
      fun hf m hm => hmods hf m (List.mem_append_right _ hm)⟩
  refine ((gives_rollMods_sound hmods hdrawn).and (gives_rollMods_inLine _ hline)).mono
    fun ts k hts => ?_
  refine ((gives_rollMods_sound htargets hts.1).and (gives_rollMods_inLine _ hts.2)).mono
    fun us k hus => ?_
  exact (gives_trivial _).mono fun matching k _ =>
    ⟨Outcome.order_ofDie, Outcome.sound_ofDie hcount.2 hsides.1 hus.2 hus.1⟩

theorem rollsSound_group {first : Formula} {others : List Formula} {mods : List (Modifier Formula)}
    {label : Option String} (h : ∀ f ∈ first :: others, RollsSound table faced f) :
    RollsSound table faced ⟨.group first others mods, label⟩ := by
  obtain ⟨hfirst, hothers⟩ := List.forall_mem_cons.mp h
  refine rollsSound_of_shape fun n => ?_
  simp only [Shape.roll, bind_pure_comp, gives_bind]
  refine (hfirst n).mono fun o k ho => ?_
  refine (gives_rollMembers hothers 1).mono fun os k hos => ?_
  obtain ⟨ps, hps, rfl⟩ := hos
  have hmembers : ∀ p ∈ o :: Outcome.placeFrom 1 ps, p.Sound faced :=
    List.forall_mem_cons.mpr ⟨ho.2, sound_of_rolled hps 1⟩
  have horder : (o :: Outcome.placeFrom 1 ps).map (fun p => p.status.order) =
      List.range (o :: Outcome.placeFrom 1 ps).length := by
    rw [List.map_cons, ho.1, Outcome.map_order_placeFrom, List.length_cons,
      Outcome.length_placeFrom, List.range_eq_range', List.range'_succ]
  split
  · rw [gives_pure]
    exact ⟨rfl, Outcome.sound_ofMembers hmembers horder⟩
  · rw [gives_map]
    exact (gives_rollGroupMods_marks mods _).mono fun es k hes =>
      ⟨Outcome.order_ofGroup, Outcome.sound_ofGroup hes hmembers horder⟩

/-- Whatever is rolled, its outcome is sound, and stands at the head of what it will be part of. -/
theorem rolls_sound (f : Formula) (h : faced → f.Uncompounded) : RollsSound table faced f := by
  induction f using Nested.induct with
  | step f ih =>
    have hmods (hf : faced) : ∀ m ∈ f.modifiers, m.isCompound = false :=
      h hf f (mem_parts_self f)
    have hoperands : ∀ g ∈ f.operands, RollsSound table faced g := by
      intro g hg
      have hchild : g ∈ children f := List.mem_append_left _ hg
      exact ih g hchild fun hf p hp => h hf p (mem_parts_of_mem_children hchild hp)
    clear ih h
    obtain ⟨shape, label⟩ := f
    cases shape with
    | die d =>
      obtain ⟨hcount, hfaces⟩ := List.forall_mem_cons.mp hoperands
      exact rollsSound_die hmods hcount hfaces
    | group first others mods => exact rollsSound_group hoperands
    | number value =>
      refine rollsSound_of_shape fun n => ?_
      rw [Shape.roll, gives_pure]
      exact ⟨rfl, Outcome.sound_of_throws_eq_nil rfl trivial (List.forall_mem_nil _)⟩
    | diceSum head tail =>
      obtain ⟨hhead, htail⟩ := List.forall_mem_cons.mp hoperands
      refine rollsSound_of_shape fun n => ?_
      simp only [Shape.roll, bind_pure_comp, gives_bind, gives_map]
      refine (hhead n).mono fun o k ho => ?_
      refine (gives_rollDiceTail htail o.value 1).mono fun r k hr => ⟨rfl, ?_⟩
      obtain ⟨ps, hps, hr⟩ := hr
      obtain ⟨horder, hrest⟩ := sound_tail hps hr
      exact Outcome.sound_of_throws_eq_nil rfl ⟨ho.1, horder⟩
        (List.forall_mem_cons.mpr ⟨ho.2, hrest⟩)
    | arithmetic head tail =>
      obtain ⟨hhead, htail⟩ := List.forall_mem_cons.mp hoperands
      refine rollsSound_of_shape fun n => ?_
      simp only [Shape.roll, bind_pure_comp, gives_bind, gives_map]
      refine (hhead n).mono fun o k ho => ?_
      refine (gives_rollMathTail htail o.value 1).mono fun r k hr => ⟨rfl, ?_⟩
      obtain ⟨ps, hps, hr⟩ := hr
      obtain ⟨horder, hrest⟩ := sound_tail hps hr
      exact Outcome.sound_of_throws_eq_nil rfl ⟨ho.1, horder⟩
        (List.forall_mem_cons.mpr ⟨ho.2, hrest⟩)
    | function f argument =>
      refine rollsSound_of_shape fun n => ?_
      simp only [Shape.roll, bind_pure_comp, gives_map]
      refine (hoperands argument List.mem_cons_self n).mono fun o k ho => ⟨rfl, ?_⟩
      exact Outcome.sound_of_throws_eq_nil rfl trivial (List.forall_mem_singleton.mpr ho.2)
    | replacement name argument =>
      refine rollsSound_of_shape fun n => ?_
      simp only [Shape.roll, bind_pure_comp, gives_bind, gives_map]
      refine (hoperands argument List.mem_cons_self n).mono fun o k ho => ?_
      refine (gives_trivial _).mono fun value k _ => ⟨rfl, ?_⟩
      exact Outcome.sound_of_throws_eq_nil rfl trivial (List.forall_mem_singleton.mpr ho.2)
    | inline inner =>
      refine rollsSound_of_shape fun n => ?_
      rw [Shape.roll]
      exact hoperands inner List.mem_cons_self n
    | unknown =>
      refine rollsSound_of_shape fun n => ?_
      simp [Shape.roll]

/-- Everything in an outcome is in order, and throws are on faces unless explosions compound. -/
theorem orderly_roll {f : Formula} {n m : Nat} {o : Outcome}
    (h : f.roll table n = (.ok o, m)) :
    ∀ p ∈ parts o, p.Orderly ∧ (f.Uncompounded → ∀ t ∈ p.throws, t.OnFace) :=
  (rolls_sound f id n o m h).2

/-- Three dice, one of which explodes once; of the four throws the highest three are kept. -/
theorem orderly_roll_explode_keep : ∃ o,
    (Formula.die ⟨.int 3, .sides (.int 6), [.explode .explode none, .keep .high (.int 3)], [], none,
      none⟩).roll (.ofSamples fun i => if i = 0 then 0.9 else 0.5) 0 = (.ok o, 4) ∧
      ∀ p ∈ parts o, p.Orderly ∧ ∀ t ∈ p.throws, t.OnFace := by
  obtain ⟨o, h⟩ := exists_of_toBool (t := .ofSamples fun i => if i = 0 then 0.9 else 0.5) (n := 0)
    (m := 4) (p := (Formula.die ⟨.int 3, .sides (.int 6),
      [.explode .explode none, .keep .high (.int 3)], [], none, none⟩).roll) (by decide +kernel)
  refine ⟨o, h, fun p hp => ?_⟩
  obtain ⟨horderly, hface⟩ := orderly_roll h p hp
  refine ⟨horderly, hface ?_⟩
  rw [Formula.Uncompounded, forall_parts_iff]
  simp [Formula.children_eq, Formula.die, Formula.int, Formula.number, Formula.bare]

end DiceNotation

import DiceNotation.Proofs.Formula.Parts
import DiceNotation.Proofs.Outcome.Assembled
import DiceNotation.Proofs.Stage.Draws

/-! No throw is lost, made twice or hidden. Each sample that a roll draws is the sample of one throw
in its outcome, the dropped and the replaced throws among them, as long as explosions do not
compound and no dice are thrown for the arguments of modifiers. -/

namespace DiceNotation

open Play Nested

namespace Outcome

/-- How many throws stand anywhere inside of an outcome. -/
def throwCount (o : Outcome) : Nat :=
  weight (fun p => p.throws.length) o

theorem throwCount_eq (o : Outcome) :
    o.throwCount = o.throws.length + (o.operands.map throwCount).sum :=
  weight_eq _ o

theorem throwCount_of_throws_eq_nil {o : Outcome} (h : o.throws = []) :
    o.throwCount = (o.operands.map throwCount).sum := by
  rw [throwCount_eq, h, List.length_nil, Nat.zero_add]

theorem throwCount_of_body {o o' : Outcome} (hbody : o'.body = o.body) :
    o'.throwCount = o.throwCount := by
  obtain ⟨status, body, label⟩ := o
  obtain ⟨status', body', label'⟩ := o'
  obtain rfl : body' = body := hbody
  rw [throwCount_eq, throwCount_eq]
  cases body' <;> rfl

theorem throwCount_relabel (o : Outcome) (label : Option String) :
    (o.relabel label).throwCount = o.throwCount :=
  throwCount_of_body (by cases label <;> rfl)

theorem throwCount_place (o : Outcome) (order : Nat) :
    (o.place order).throwCount = o.throwCount :=
  throwCount_of_body rfl

theorem throwCount_ofDie (count : Outcome) (faces : Option Outcome) (hasTargets : Bool)
    (matching : Option (Matching Number)) (sorting : Option Sorting) (ts : List Throw) :
    (ofDie count faces hasTargets matching sorting ts).throwCount =
      ts.length + (count.throwCount + (faces.toList.map throwCount).sum) := by
  rw [throwCount_eq, throws_ofDie, operands_ofDie, length_sortedThrows, length_markedThrows,
    length_scoredThrows, List.map_cons, List.sum_cons]

mutual
theorem throwCount_of_revised : {o o' : Outcome} → Revised o o' → o'.throwCount = o.throwCount
  | _, _, .die _ throws => by
    rw [throwCount_eq, throwCount_eq]
    simp only [Outcome.throws, operands, throws.length_eq]
  | _, _, .status _ _ => throwCount_of_body rfl
  | _, _, .diceSum _ first others => by
    rw [throwCount_eq, throwCount_eq]
    simp only [Outcome.throws, operands, List.map_cons, List.sum_cons, throwCount_of_revised first,
      throwCount_of_revisedTail others]

theorem throwCount_of_revisedTail : {tail tail' : List (Sign × Outcome)} → RevisedTail tail tail' →
    ((tail'.map Prod.snd).map throwCount).sum = ((tail.map Prod.snd).map throwCount).sum
  | _, _, .nil => rfl
  | _, _, .cons first others => by
    simp only [List.map_cons, List.sum_cons, throwCount_of_revised first,
      throwCount_of_revisedTail others]
end

theorem sum_throwCount_of_revised {members members' : List Outcome}
    (h : List.Forall₂ Revised members members') :
    (members'.map throwCount).sum = (members.map throwCount).sum := by
  induction h with
  | nil => rfl
  | cons first _ ih => rw [List.map_cons, List.map_cons, List.sum_cons, List.sum_cons, ih,
      throwCount_of_revised first]

theorem throwCount_ofMembers (members : List Outcome) :
    (ofMembers members).throwCount = (members.map throwCount).sum :=
  throwCount_of_throws_eq_nil rfl

theorem throwCount_ofGroup {members : List Outcome} {hasTargets : Bool} {ss : List Status}
    (hss : List.Forall₂ (Status.Marks true) (entries members) ss) :
    (ofGroup members hasTargets ss).throwCount = (members.map throwCount).sum := by
  obtain ⟨members', hrevised, hbody⟩ := body_ofGroup hasTargets hss
  rw [throwCount_of_body (o := ofMembers members') hbody, throwCount_ofMembers,
    sum_throwCount_of_revised hrevised]

end Outcome

variable {table : Table} {n : Nat}

namespace Formula

/-- A formula with no dice anywhere inside of it. -/
def Diceless (f : Formula) : Prop :=
  ∀ g ∈ parts f, g.isDie = false

/-- A formula whose modifiers and matchings throw no dice for their arguments. -/
def PlainArguments (f : Formula) : Prop :=
  ∀ g ∈ parts f, ∀ a ∈ g.arguments, a.Diceless

/-- The roll drew a sample for each throw in its outcome, which has none without dice. -/
def Whole (f : Formula) (n : Nat) (o : Outcome) (m : Nat) : Prop :=
  m = n + o.throwCount ∧ (f.Diceless → o.throwCount = 0)

def RollsWhole (table : Table) (f : Formula) : Prop :=
  ∀ n, f.roll.Gives table n (f.Whole n)

theorem Diceless.operands {f g : Formula} (h : f.Diceless) (hg : g ∈ f.operands) : g.Diceless :=
  fun p hp => h p (mem_parts_of_mem_children (List.mem_append_left _ hg) hp)

end Formula

open Formula (RollsWhole)

theorem whole_of_rolled {fs : List Formula} {os : List Outcome} {m : Nat}
    (h : Rolled Formula.Whole fs n os m) : m = n + (os.map Outcome.throwCount).sum ∧
      ((∀ f ∈ fs, f.Diceless) → (os.map Outcome.throwCount).sum = 0) := by
  induction h with
  | nil => exact ⟨rfl, fun _ => rfl⟩
  | cons first _ ih =>
    rw [List.map_cons, List.sum_cons, List.forall_mem_cons]
    refine ⟨by rw [ih.1, first.1, Nat.add_assoc], fun hfs => ?_⟩
    rw [first.2 hfs.1, ih.2 hfs.2]

theorem still_of_rolled {fs : List Formula} {os : List Outcome} {m : Nat}
    (h : Rolled Formula.Whole fs n os m) (hfs : ∀ f ∈ fs, f.Diceless) : m = n := by
  obtain ⟨hm, hzero⟩ := whole_of_rolled h
  rw [hm, hzero hfs, Nat.add_zero]

section Modifiers

variable {mods : List (Modifier Formula)}

theorem gives_rollModifier_still {m : Modifier Formula}
    (h : ∀ f ∈ m.arguments, RollsWhole table f) (hplain : ∀ f ∈ m.arguments, f.Diceless) :
    (rollModifier m).Gives table n fun m' k => m'.kind = m.kind ∧ k = n := by
  refine (gives_rollModifier h).mono fun m' k hm => ?_
  obtain ⟨hkind, ps, hps, -⟩ := hm
  exact ⟨hkind, still_of_rolled hps hplain⟩

theorem gives_rollGroupMods_still (h : ∀ f ∈ mods.flatMap Modifier.arguments, RollsWhole table f)
    (hplain : ∀ f ∈ mods.flatMap Modifier.arguments, f.Diceless) (es : List Entry) :
    (rollGroupMods mods es).Gives table n fun _ k => k = n := by
  induction mods generalizing es with
  | nil => simp [rollGroupMods]
  | cons m mods ih =>
    rw [List.flatMap_cons, List.forall_mem_append] at h hplain
    rw [rollGroupMods]
    split
    · simp
    · simp only [gives_bind]
      refine (gives_rollModifier_still h.1 hplain.1).mono fun m' k hm => ?_
      obtain ⟨-, rfl⟩ := hm
      unfold entryStage
      split
      · rw [gives_pure]
        exact ih h.2 hplain.2 _
      · simp

/-- The modifiers of a die make as many throws as they draw samples. -/
theorem gives_rollMods_draws (hmods : ∀ m ∈ mods, m.isCompound = false)
    (h : ∀ f ∈ mods.flatMap Modifier.arguments, RollsWhole table f)
    (hplain : ∀ f ∈ mods.flatMap Modifier.arguments, f.Diceless) (ts : List Throw) :
    (rollMods mods ts).Gives table n fun us k => k + ts.length = n + us.length := by
  induction mods generalizing ts n with
  | nil => simp [rollMods]
  | cons m mods ih =>
    rw [List.flatMap_cons, List.forall_mem_append] at h hplain
    rw [List.forall_mem_cons] at hmods
    simp only [rollMods, gives_bind]
    refine (gives_rollModifier_still h.1 hplain.1).mono fun m' k hm => ?_
    obtain ⟨hkind, rfl⟩ := hm
    have hm' : m'.isCompound = false := by
      rw [← m'.isCompound_kind, hkind, m.isCompound_kind, hmods.1]
    refine (gives_throwStage_draws hm' ts).mono fun us k hus => ?_
    refine (ih hmods.2 h.2 hplain.2 us).mono fun vs l hvs => ?_
    omega

end Modifiers

theorem sum_throwCount_tail {ω : Type} (o : Outcome) {tail : List (ω × Outcome)}
    {os : List Outcome} (h : tail.map Prod.snd = Outcome.placeFrom 1 os) :
    ((o :: tail.map Prod.snd).map Outcome.throwCount).sum =
      ((o :: os).map Outcome.throwCount).sum := by
  rw [h, List.map_cons, List.map_cons, Outcome.map_placeFrom Outcome.throwCount_place]

theorem rollsWhole_of_shape {shape : Shape} {label : Option String}
    (h : ∀ n, shape.roll.Gives table n fun o m =>
      ∃ ps, Rolled Formula.Whole (Formula.operands ⟨shape, label⟩) n ps m ∧
        o.throwCount = (ps.map Outcome.throwCount).sum) :
    RollsWhole table ⟨shape, label⟩ := by
  intro n
  simp only [Formula.roll, bind_pure_comp, gives_map]
  refine (h n).mono fun o m ho => ?_
  obtain ⟨ps, hps, ho⟩ := ho
  obtain ⟨hm, hzero⟩ := whole_of_rolled hps
  rw [Formula.Whole, Outcome.throwCount_relabel, ho]
  exact ⟨hm, fun hplain => hzero fun g hg => hplain.operands hg⟩

theorem rollsWhole_die {d : Die Formula} {label : Option String}
    (hmods : ∀ m ∈ d.mods ++ d.targets, m.isCompound = false)
    (hoperands : ∀ f ∈ Formula.operands ⟨.die d, label⟩, RollsWhole table f)
    (harguments : ∀ f ∈ Formula.arguments ⟨.die d, label⟩, RollsWhole table f)
    (hplain : ∀ f ∈ Formula.arguments ⟨.die d, label⟩, f.Diceless) :
    RollsWhole table ⟨.die d, label⟩ := by
  obtain ⟨hcount, hfaces⟩ := List.forall_mem_cons.mp hoperands
  simp only [Formula.arguments, Formula.modifiers, Formula.matching?, List.flatMap_append,
    List.forall_mem_append] at harguments hplain hmods
  intro n
  simp only [Formula.roll, Shape.roll, bind_pure_comp, gives_bind, gives_map]
  refine (hcount n).mono fun count k hk => (gives_throwCount _).mono fun size l hl => ?_
  subst hl
  refine (gives_rollFaces hfaces).mono fun r l hsides => ?_
  obtain ⟨sides, faces⟩ := r
  have hl := (whole_of_rolled hsides).1
  rw [gives_throwMany]
  refine (gives_rollMods_draws hmods.1 harguments.1.1 hplain.1.1 _).mono fun ts i hts => ?_
  refine (gives_rollMods_draws hmods.2 harguments.1.2 hplain.1.2 ts).mono fun us j hus => ?_
  refine (gives_rollMatching harguments.2).mono fun matching m hmatching => ?_
  obtain ⟨ps, hps⟩ := hmatching
  have hm : m = j := still_of_rolled hps hplain.2
  refine ⟨?_, fun hdice => absurd (hdice _ (mem_parts_self _)) (by simp [Formula.isDie])⟩
  rw [Outcome.throwCount_relabel, Outcome.throwCount_ofDie]
  have hcount := hk.1
  rw [Throw.length_drawMany] at hts
  omega

theorem rollsWhole_group {first : Formula} {others : List Formula} {mods : List (Modifier Formula)}
    {label : Option String} (hoperands : ∀ f ∈ first :: others, RollsWhole table f)
    (harguments : ∀ f ∈ mods.flatMap Modifier.arguments, RollsWhole table f)
    (hplain : ∀ f ∈ mods.flatMap Modifier.arguments, f.Diceless) :
    RollsWhole table ⟨.group first others mods, label⟩ := by
  obtain ⟨hfirst, hothers⟩ := List.forall_mem_cons.mp hoperands
  refine rollsWhole_of_shape fun n => ?_
  simp only [Shape.roll, bind_pure_comp, gives_bind]
  refine (hfirst n).mono fun o k ho => (gives_rollMembers hothers 1).mono fun os l hos => ?_
  obtain ⟨ps, hps, rfl⟩ := hos
  have hmembers : ((o :: Outcome.placeFrom 1 ps).map Outcome.throwCount).sum =
      ((o :: ps).map Outcome.throwCount).sum := by
    simp only [List.map_cons, Outcome.map_placeFrom Outcome.throwCount_place]
  split
  · rw [gives_pure]
    exact ⟨o :: ps, .cons ho hps, (Outcome.throwCount_ofMembers _).trans hmembers⟩
  · rw [gives_map]
    refine ((gives_rollGroupMods_marks mods _).and (gives_rollGroupMods_still harguments
      hplain _)).mono fun es m hes => ?_
    obtain ⟨hmarks, rfl⟩ := hes
    exact ⟨o :: ps, .cons ho hps, (Outcome.throwCount_ofGroup hmarks).trans hmembers⟩

/-- Every sample that is drawn becomes one throw in the outcome. -/
theorem rolls_whole (f : Formula) (hmods : f.Uncompounded) (hplain : f.PlainArguments) :
    RollsWhole table f := by
  induction f using Nested.induct with
  | step f ih =>
    have hhere : ∀ m ∈ f.modifiers, m.isCompound = false := hmods f (mem_parts_self f)
    have hdiceless : ∀ g ∈ f.arguments, g.Diceless := hplain f (mem_parts_self f)
    have hchildren : ∀ g ∈ children f, RollsWhole table g := fun g hg =>
      ih g hg (fun p hp => hmods p (mem_parts_of_mem_children hg hp))
        fun p hp => hplain p (mem_parts_of_mem_children hg hp)
    rw [Formula.children_eq, List.forall_mem_append] at hchildren
    obtain ⟨hoperands, harguments⟩ := hchildren
    clear ih hmods hplain
    obtain ⟨shape, label⟩ := f
    cases shape with
    | die d => exact rollsWhole_die hhere hoperands harguments hdiceless
    | group first others mods =>
      have hmods : Formula.arguments ⟨.group first others mods, label⟩ =
          mods.flatMap Modifier.arguments := List.append_nil _
      rw [hmods] at harguments hdiceless
      exact rollsWhole_group hoperands harguments hdiceless
    | number value =>
      refine rollsWhole_of_shape fun n => ?_
      rw [Shape.roll, gives_pure]
      exact ⟨[], .nil n, Outcome.throwCount_of_throws_eq_nil rfl⟩
    | diceSum head tail =>
      obtain ⟨hhead, htail⟩ := List.forall_mem_cons.mp hoperands
      refine rollsWhole_of_shape fun n => ?_
      simp only [Shape.roll, bind_pure_comp, gives_map, gives_bind]
      refine (hhead n).mono fun o k ho => ?_
      refine (gives_rollDiceTail htail _ 1).mono fun r m hr => ?_
      obtain ⟨ps, hps, hr⟩ := hr
      refine ⟨o :: ps, .cons ho hps, (Outcome.throwCount_of_throws_eq_nil rfl).trans ?_⟩
      exact sum_throwCount_tail o hr
    | arithmetic head tail =>
      obtain ⟨hhead, htail⟩ := List.forall_mem_cons.mp hoperands
      refine rollsWhole_of_shape fun n => ?_
      simp only [Shape.roll, bind_pure_comp, gives_map, gives_bind]
      refine (hhead n).mono fun o k ho => ?_
      refine (gives_rollMathTail htail _ 1).mono fun r m hr => ?_
      obtain ⟨ps, hps, hr⟩ := hr
      refine ⟨o :: ps, .cons ho hps, (Outcome.throwCount_of_throws_eq_nil rfl).trans ?_⟩
      exact sum_throwCount_tail o hr
    | function f argument =>
      refine rollsWhole_of_shape fun n => ?_
      simp only [Shape.roll, bind_pure_comp, gives_map]
      refine (hoperands argument List.mem_cons_self n).mono fun o k ho => ?_
      exact ⟨[o], .cons ho (.nil k), Outcome.throwCount_of_throws_eq_nil rfl⟩
    | replacement name argument =>
      refine rollsWhole_of_shape fun n => ?_
      simp only [Shape.roll, bind_pure_comp, gives_bind, gives_map]
      refine (hoperands argument List.mem_cons_self n).mono fun o k ho => ?_
      refine (gives_transform name _).mono fun value m hm => ?_
      subst hm
      exact ⟨[o], .cons ho (.nil _), Outcome.throwCount_of_throws_eq_nil rfl⟩
    | inline inner =>
      refine rollsWhole_of_shape fun n => ?_
      rw [Shape.roll]
      refine (hoperands inner List.mem_cons_self n).mono fun o k ho => ?_
      exact ⟨[o], .cons ho (.nil k), (Nat.add_zero _).symm⟩
    | unknown =>
      refine rollsWhole_of_shape fun n => ?_
      simp [Shape.roll]

/-- As many samples are drawn as there are throws in the outcome. -/
theorem drawn_eq_throwCount {f : Formula} {m : Nat} {o : Outcome} (hmods : f.Uncompounded)
    (hplain : f.PlainArguments) (h : f.roll table n = (.ok o, m)) : m = n + o.throwCount :=
  (rolls_whole f hmods hplain n o m h).1

/-- Three dice, of which one explodes once; the other two and the bonus die are thrown again. -/
theorem drawn_eq_throwCount_explode_reroll : ∃ o,
    (Formula.die ⟨.int 3, .sides (.int 6), [.explode .explode none, .reroll true (some ⟨.atMost,
      .int 2⟩)], [], none, none⟩).roll (.ofSamples fun i => if i = 0 then 0.9 else 0.3) 0 =
        (.ok o, 7) ∧ 7 = 0 + o.throwCount := by
  obtain ⟨o, h⟩ := exists_of_toBool (t := .ofSamples fun i => if i = 0 then 0.9 else 0.3) (n := 0)
    (m := 7) (p := (Formula.die ⟨.int 3, .sides (.int 6), [.explode .explode none, .reroll true
      (some ⟨.atMost, .int 2⟩)], [], none, none⟩).roll) (by decide +kernel)
  refine ⟨o, h, drawn_eq_throwCount ?_ ?_ h⟩
  · rw [Formula.Uncompounded, forall_parts_iff]
    simp [Formula.children_eq, Formula.die, Formula.int, Formula.number, Formula.bare]
  · rw [Formula.PlainArguments, forall_parts_iff]
    simp [Formula.children_eq, Formula.Diceless, Formula.die, Formula.int, Formula.number,
      Formula.bare]

end DiceNotation

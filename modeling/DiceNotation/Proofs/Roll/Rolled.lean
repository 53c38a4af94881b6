import DiceNotation.Formula.Roll
import DiceNotation.Proofs.Chance.Gives
import DiceNotation.Proofs.Formula.Kinds
import DiceNotation.Proofs.Formula.Parts

/-! Formulas rolled one after the other. Members, terms and arguments are all rolled from left to
right, so what each of them gives makes up what the whole list gives. -/

namespace DiceNotation

open Play

/-- Outcomes of formulas that are rolled in turn, each from where the source came to before it. -/
inductive Rolled (Q : Formula → Nat → Outcome → Nat → Prop) :
    List Formula → Nat → List Outcome → Nat → Prop
  | nil (n : Nat) : Rolled Q [] n [] n
  | cons {f : Formula} {fs : List Formula} {o : Outcome} {os : List Outcome} {n k m : Nat}
      (first : Q f n o k) (others : Rolled Q fs k os m) : Rolled Q (f :: fs) n (o :: os) m

/-- Outcomes placed one after the other, the first at `order`. -/
def Outcome.placeFrom : Nat → List Outcome → List Outcome
  | _, [] => []
  | order, o :: os => o.place order :: placeFrom (order + 1) os

namespace Outcome

@[simp] theorem length_placeFrom (order : Nat) (os : List Outcome) :
    (placeFrom order os).length = os.length := by
  induction os generalizing order with
  | nil => rfl
  | cons o os ih => simp [placeFrom, ih]

theorem map_order_placeFrom (order : Nat) (os : List Outcome) :
    (placeFrom order os).map (fun o => o.status.order) = List.range' order os.length := by
  induction os generalizing order with
  | nil => rfl
  | cons o os ih =>
    rw [placeFrom, List.map_cons, ih, List.length_cons, List.range'_succ]
    rfl

/-- Placing changes nothing inside of an outcome. -/
theorem map_placeFrom {β : Type} {w : Outcome → β} (hw : ∀ o i, w (o.place i) = w o) (order : Nat)
    (os : List Outcome) : (placeFrom order os).map w = os.map w := by
  induction os generalizing order with
  | nil => rfl
  | cons o os ih => rw [placeFrom, List.map_cons, List.map_cons, hw, ih]

end Outcome

variable {table : Table} {Q : Formula → Nat → Outcome → Nat → Prop} {n : Nat}

theorem gives_transform (name : String) (value : Number) :
    (transform name value).Gives table n fun _ m => m = n := by
  simp only [transform, gives_bind, gives_table]
  split <;> simp

theorem gives_throwCount (count : Number) : (throwCount count).Gives table n fun _ m => m = n := by
  simp only [throwCount, gives_bind, gives_table]
  split <;> simp

section Lists

theorem gives_rollMembers {fs : List Formula}
    (h : ∀ f ∈ fs, ∀ n, f.roll.Gives table n (Q f n)) (order : Nat) :
    (rollMembers fs order).Gives table n fun os m =>
      ∃ ps, Rolled Q fs n ps m ∧ os = Outcome.placeFrom order ps := by
  induction fs generalizing order n with
  | nil =>
    rw [rollMembers, gives_pure]
    exact ⟨[], .nil n, rfl⟩
  | cons f fs ih =>
    obtain ⟨hf, hfs⟩ := List.forall_mem_cons.mp h
    simp only [rollMembers, bind_pure_comp, gives_bind, gives_map]
    refine (hf n).mono fun o k ho => (ih hfs (order + 1)).mono fun os m hos => ?_
    obtain ⟨ps, hps, rfl⟩ := hos
    exact ⟨o :: ps, .cons ho hps, rfl⟩

theorem gives_rollDiceTail {tail : List (Sign × Formula)}
    (h : ∀ f ∈ tail.map Prod.snd, ∀ n, f.roll.Gives table n (Q f n)) (value : Number)
    (order : Nat) :
    (rollDiceTail tail value order).Gives table n fun r m =>
      ∃ ps, Rolled Q (tail.map Prod.snd) n ps m ∧ r.1.map Prod.snd = Outcome.placeFrom order ps := by
  induction tail generalizing value order n with
  | nil =>
    rw [rollDiceTail, gives_pure]
    exact ⟨[], .nil n, rfl⟩
  | cons t tail ih =>
    obtain ⟨op, f⟩ := t
    obtain ⟨hf, htail⟩ := List.forall_mem_cons.mp h
    simp only [rollDiceTail, bind_pure_comp, gives_bind, gives_map]
    refine (hf n).mono fun o k ho => (ih htail _ (order + 1)).mono fun r m hr => ?_
    obtain ⟨ps, hps, hplaced⟩ := hr
    exact ⟨o :: ps, .cons ho hps, by rw [List.map_cons, hplaced]; rfl⟩

theorem gives_combine (op : Operator) (a b : Number) :
    (combine op a b).Gives table n fun _ m => m = n := by
  cases op with
  | div | rem =>
    simp only [combine]
    split <;> simp
  | add | sub | mul | pow => simp [combine]

theorem gives_rollMathTail {tail : List (Operator × Formula)}
    (h : ∀ f ∈ tail.map Prod.snd, ∀ n, f.roll.Gives table n (Q f n)) (value : Number)
    (order : Nat) :
    (rollMathTail tail value order).Gives table n fun r m =>
      ∃ ps, Rolled Q (tail.map Prod.snd) n ps m ∧ r.1.map Prod.snd = Outcome.placeFrom order ps := by
  induction tail generalizing value order n with
  | nil =>
    rw [rollMathTail, gives_pure]
    exact ⟨[], .nil n, rfl⟩
  | cons t tail ih =>
    obtain ⟨op, f⟩ := t
    obtain ⟨hf, htail⟩ := List.forall_mem_cons.mp h
    simp only [rollMathTail, bind_pure_comp, gives_bind, gives_map]
    refine (hf n).mono fun o k ho => (gives_combine op _ _).mono fun v l hl => ?_
    subst hl
    refine (ih htail v (order + 1)).mono fun r m hr => ?_
    obtain ⟨ps, hps, hplaced⟩ := hr
    exact ⟨o :: ps, .cons ho hps, by rw [List.map_cons, hplaced]; rfl⟩

end Lists

section Arguments

theorem gives_rollOptionalTarget {t : Option (Target Formula)}
    (h : ∀ f ∈ t.toList.map Target.value, ∀ n, f.roll.Gives table n (Q f n)) :
    (rollOptionalTarget t).Gives table n fun t' m =>
      t'.map (fun t => (⟨t.relation, ()⟩ : Target Unit)) = t.map (fun t => ⟨t.relation, ()⟩) ∧
        ∃ ps, Rolled Q (t.toList.map Target.value) n ps m ∧
          t'.toList.map Target.value = ps.map Outcome.value := by
  cases t with
  | none =>
    rw [rollOptionalTarget, gives_pure]
    exact ⟨rfl, [], .nil n, rfl⟩
  | some t =>
    obtain ⟨relation, f⟩ := t
    simp only [rollOptionalTarget, rollTarget, bind_pure_comp, gives_map]
    exact (h f List.mem_cons_self n).mono fun o m ho => ⟨rfl, [o], .cons ho (.nil m), rfl⟩

/-- Rolling a modifier rolls its arguments, and leaves its kind. -/
theorem gives_rollModifier {m : Modifier Formula}
    (h : ∀ f ∈ m.arguments, ∀ n, f.roll.Gives table n (Q f n)) :
    (rollModifier m).Gives table n fun m' k => m'.kind = m.kind ∧
      ∃ ps, Rolled Q m.arguments n ps k ∧ m'.arguments = ps.map Outcome.value := by
  cases m with
  | keep _ count | drop _ count =>
    simp only [rollModifier, bind_pure_comp, gives_map]
    exact (h count List.mem_cons_self n).mono fun o k ho => ⟨rfl, [o], .cons ho (.nil k), rfl⟩
  | success t | failure t | critical t | criticalFailure t =>
    obtain ⟨relation, f⟩ := t
    simp only [rollModifier, rollTarget, bind_pure_comp, gives_map]
    exact (h f List.mem_cons_self n).mono fun o k ho => ⟨rfl, [o], .cons ho (.nil k), rfl⟩
  | explode mode t | reroll once t =>
    simp only [rollModifier, bind_pure_comp, gives_map]
    refine (gives_rollOptionalTarget h).mono fun t' k ht => ⟨?_, ht.2⟩
    simp only [Modifier.kind, Modifier.map, ht.1]
  | unknown =>
    rw [rollModifier, gives_pure]
    exact ⟨rfl, [], .nil n, rfl⟩

theorem gives_rollMatching {matching : Option (Matching Formula)}
    (h : ∀ f ∈ matching.toList.flatMap Matching.arguments, ∀ n, f.roll.Gives table n (Q f n)) :
    (rollMatching matching).Gives table n fun _ m =>
      ∃ ps, Rolled Q (matching.toList.flatMap Matching.arguments) n ps m := by
  cases matching with
  | none =>
    rw [rollMatching, gives_pure]
    exact ⟨[], .nil n⟩
  | some matching =>
    obtain ⟨least, counted, filter⟩ := matching
    rw [Option.toList_some, List.flatMap_singleton, Matching.arguments] at h ⊢
    obtain ⟨hleast, hfilter⟩ := List.forall_mem_cons.mp h
    simp only [rollMatching, bind_pure_comp, gives_bind, gives_map]
    refine (hleast n).mono fun o k ho => (gives_rollOptionalTarget hfilter).mono fun t m ht => ?_
    obtain ⟨-, ps, hps, -⟩ := ht
    exact ⟨o :: ps, .cons ho hps⟩

theorem gives_rollFaces {faces : Faces Formula}
    (h : ∀ f ∈ faces.arguments, ∀ n, f.roll.Gives table n (Q f n)) :
    (rollFaces faces).Gives table n fun r m => Rolled Q faces.arguments n r.1.toList m := by
  cases faces with
  | fate =>
    rw [rollFaces, gives_pure]
    exact .nil n
  | sides count =>
    simp only [rollFaces, bind_pure_comp, gives_bind, gives_map]
    refine (h count List.mem_cons_self n).mono fun o k ho => ?_
    unfold sidesOf
    split
    · simp
    · rw [gives_pure]
      exact .cons ho (.nil k)

end Arguments

end DiceNotation

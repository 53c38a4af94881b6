import DiceNotation.Proofs.Number.Sums
import DiceNotation.Proofs.Stage.Bursting

/-! Explosions that compound. They draw what explosions of the same dice draw, and each die takes in
the block that it would have become: it is worth what the block is worth and shows what the block
shows, and it has exploded if the block has more than one throw. -/

namespace DiceNotation

namespace Throw

def valueSum (ts : List Throw) : Int :=
  (ts.map fun t => t.value.toInt64.toInt).sum

def faceSum (ts : List Throw) : Int :=
  (ts.map fun t => t.face.toInt).sum

/-- What throws are worth and show together is in range. Where no face is negative, a sum that ends in
range has been there all the way; fate dice also lead back, so with them the sums on the way have to be
in range as well. -/
def InRange (faces : Faces Int64) (ts : List Throw) : Prop :=
  Number.Fits (faceSum ts) ∧
    match faces with
    | .sides _ => Number.Fits (valueSum ts)
    | .fate => ∀ k, Number.Fits (valueSum (ts.take k))

/-- A throw that a block of throws was folded into: nothing but its value, its face, its order and
whether it has exploded is other than it was. -/
structure Folds (faces : Faces Int64) (t : Throw) (block : List Throw) (v : Throw) : Prop where
  kept : v = { t with
    status := { t.status with value := v.value, order := v.status.order }
    face := v.face
    exploded := v.exploded }
  exploded : v.exploded = (t.exploded || decide (1 < block.length))
  sums : InRange faces block → v.value = .ofInt (valueSum block) ∧ v.face.toInt = faceSum block

theorem Folds.place {faces : Faces Int64} {t v : Throw} {block : List Throw}
    (h : Folds faces t block v) (order : Nat) : Folds faces t block (v.place order) where
  kept := by
    rw [h.kept]
    rfl
  exploded := h.exploded
  sums := h.sums

end Throw

namespace Stage

open Throw (valueSum faceSum InRange Folds)

variable {samples : Samples} {faces : Faces Int64} {condition : Target Number}

section Block

variable {bonus : List Int64} {t : Throw}

theorem map_value_withBonuses (faces : Faces Int64) (bonus : List Int64) (t : Throw) :
    (withBonuses faces .explode t bonus).map (fun u => u.value.toInt64.toInt) =
      t.value.toInt64.toInt :: bonus.map Int64.toInt := by
  induction bonus generalizing t with
  | nil => rfl
  | cons face rest ih =>
    rw [withBonuses, List.map_cons, ih]
    rfl

theorem map_face_withBonuses (faces : Faces Int64) (bonus : List Int64) (t : Throw) :
    (withBonuses faces .explode t bonus).map (fun u => u.face.toInt) =
      t.face.toInt :: bonus.map Int64.toInt := by
  induction bonus generalizing t with
  | nil => rfl
  | cons face rest ih =>
    rw [withBonuses, List.map_cons, ih]
    rfl

theorem valueSum_withBonuses : valueSum (withBonuses faces .explode t bonus) =
    t.value.toInt64.toInt + (bonus.map Int64.toInt).sum := by
  rw [valueSum, map_value_withBonuses, List.sum_cons]

theorem valueSum_take_withBonuses (k : Nat) :
    valueSum ((withBonuses faces .explode t bonus).take (k + 1)) =
      t.value.toInt64.toInt + ((bonus.map Int64.toInt).take k).sum := by
  rw [valueSum, List.map_take, map_value_withBonuses, List.take_succ_cons, List.sum_cons]

theorem faceSum_withBonuses : faceSum (withBonuses faces .explode t bonus) =
    t.face.toInt + (bonus.map Int64.toInt).sum := by
  rw [faceSum, map_face_withBonuses, List.sum_cons]

theorem compounded_eq : compounded t bonus = { t with
    status := { t.status with value := bonus.foldl (fun x face => x + .int face) t.value }
    face := bonus.foldl (· + ·) t.face
    exploded := t.exploded || decide (0 < bonus.length) } := by
  induction bonus generalizing t with
  | nil => simp [compounded, Throw.value]
  | cons face rest ih =>
    rw [compounded, List.foldl_cons, ← compounded, ih]
    simp [Throw.value]

/-- The sums on the way of a throw and its bonus dice are in range, if the sums at the end are. -/
theorem fits_of_inRange (hbonus : ∀ face ∈ bonus, faces.Shows face)
    (h : InRange faces (withBonuses faces .explode t bonus)) (k : Nat) :
    Number.Fits (t.value.toInt64.toInt + ((bonus.map Int64.toInt).take k).sum) := by
  cases faces with
  | fate =>
    rw [← valueSum_take_withBonuses]
    exact h.2 (k + 1)
  | sides count =>
    have hnonneg : ∀ n ∈ bonus.map Int64.toInt, 0 ≤ n := by
      intro n hn
      obtain ⟨face, hface, rfl⟩ := List.mem_map.mp hn
      have hlow : (1 : Int64).toInt ≤ face.toInt := Int64.le_iff_toInt_le.mp (hbonus face hface).1
      have one : (1 : Int64).toInt = 1 := rfl
      omega
    have hsum := h.2
    rw [valueSum_withBonuses] at hsum
    exact Number.fits_add_sum_take hnonneg (Number.fits_toInt _) hsum k

theorem folds_compounded (hint : t.value.isInt = true) (hbonus : ∀ face ∈ bonus, faces.Shows face) :
    Folds faces t (withBonuses faces .explode t bonus) (compounded t bonus) where
  kept := by
    rw [compounded_eq]
    rfl
  exploded := by simp [compounded_eq]
  sums h := by
    have hfits := fits_of_inRange hbonus h
    have hface := h.1
    rw [faceSum_withBonuses] at hface
    obtain ⟨i, hi⟩ := Number.exists_of_isInt hint
    rw [compounded_eq, valueSum_withBonuses, faceSum_withBonuses]
    rw [hi] at hfits ⊢
    exact ⟨Number.foldl_add_int hfits, Number.toInt_foldl_add hface⟩

end Block

section Run

variable {target : Option (Target Number)} {ts : List Throw}

theorem flatten_compound (runs : List (List Int64)) :
    (List.zipWith (explodeBlock faces .compound) ts runs).flatten =
      List.zipWith compounded ts runs := by
  induction ts generalizing runs with
  | nil => rfl
  | cons t ts ih =>
    cases runs with
    | nil => rfl
    | cons bonus runs => exact congrArg (compounded t bonus :: ·) (ih runs)

/-- A block and what compounded in its place stem from the same bonus dice. -/
theorem exists_bonus_of_getElem? {runs : List (List Int64)} {j : Nat} {t v : Throw}
    {block : List Throw} (ht : ts[j]? = some t)
    (hblock : (List.zipWith (explodeBlock faces .explode) ts runs)[j]? = some block)
    (hv : (Throw.lineUp (List.zipWith compounded ts runs))[j]? = some v) :
    ∃ bonus ∈ runs, block = withBonuses faces .explode t bonus ∧ v = (compounded t bonus).place j := by
  obtain ⟨t', bonus, ht', hbonus, rfl⟩ := List.getElem?_zipWith_eq_some.mp hblock
  cases ht.symm.trans ht'
  rw [Throw.lineUp, List.getElem?_mapIdx, List.getElem?_zipWith, ht, hbonus] at hv
  cases hv
  exact ⟨bonus, List.mem_of_getElem? hbonus, rfl, rfl⟩

/-- Explosions that compound draw what explosions of the same dice draw, and leave each die in its
place, with the block folded into it that it would have become. -/
theorem compound_folds (hkind : ∀ t ∈ ts, t.faces = faces) (hvalues : ∀ t ∈ ts, t.value.isInt = true)
    (hint : (explodesOn faces target).value.isInt = true)
    (hfails : ∃ face, faces.Shows face ∧ (explodesOn faces target).accepts (.int face) = false)
    (samples : Samples) (name : String) (cursor : Nat) :
    ∃ (blocks : List (List Throw)) (us vs : List Throw) (stop : Nat),
      explode samples .explode target name cursor ts = (.ok us, stop) ∧
      us = Throw.lineUp blocks.flatten ∧
      InTurn (Exploded samples faces (explodesOn faces target) .explode) cursor ts blocks stop ∧
      explode samples .compound target name cursor ts = (.ok vs, stop) ∧
      vs.length = ts.length ∧ InLine vs ∧
      ∀ (j : Nat) t block v, ts[j]? = some t → blocks[j]? = some block → vs[j]? = some v →
        Folds faces t block v := by
  have hmode : Explosion.explode ≠ .compound := by decide
  have hexplode := explode_eq hkind hint hfails samples .explode name cursor
  have hcompound := explode_eq hkind hint hfails samples .compound name cursor
  obtain ⟨face, hshown, -⟩ := hfails
  have hturns := inTurn_explodeFrom samples (explodesOn faces target) hmode hshown.proper cursor ts
  rw [flatten_compound] at hcompound
  refine ⟨_, _, _, _, hexplode, rfl, hturns, hcompound, by simp, inLine_lineUp _, ?_⟩
  intro j t block v ht hblock hv
  obtain ⟨bonus, hbonus, rfl, rfl⟩ := exists_bonus_of_getElem? ht hblock hv
  have ht := List.mem_of_getElem? ht
  have hbonus := shows_of_mem_bonusRuns hshown.proper hbonus
  exact (folds_compounded (hvalues t ht) hbonus).place j

/-- A six takes in the two sixes and the one that it would have brought. -/
theorem compound_folds_six : ∃ block v,
    explode (fun i => if i < 2 then 0.9 else 0.1) .explode none "explode" 0
      [.fresh (.sides 6) 6 0] = (.ok (Throw.lineUp block), 3) ∧
    explode (fun i => if i < 2 then 0.9 else 0.1) .compound none "explode" 0
      [.fresh (.sides 6) 6 0] = (.ok [v], 3) ∧
    Folds (.sides 6) (.fresh (.sides 6) 6 0) block v ∧ InRange (.sides 6) block ∧
    v.value = .ofInt 19 ∧ v.face.toInt = 19 := by
  have hkind : ∀ t ∈ [Throw.fresh (.sides 6) 6 0], t.faces = .sides 6 := by
    simp [Throw.fresh]
  have hvalues : ∀ t ∈ [Throw.fresh (.sides 6) 6 0], t.value.isInt = true := by
    simp [Throw.fresh, Throw.value, Status.ofValue, Number.isInt]
  have hfails : ∃ face, Faces.Shows (.sides 6) face ∧
      (explodesOn (.sides 6) none).accepts (.int face) = false := ⟨1, by decide, by decide⟩
  obtain ⟨blocks, us, vs, stop, hexplode, hus, hturns, hcompound, hlength, -, hfolds⟩ :=
    compound_folds hkind hvalues rfl hfails (fun i => if i < 2 then 0.9 else 0.1) "explode" 0
  obtain ⟨v, rfl⟩ := List.length_eq_one_iff.mp hlength
  obtain ⟨block, rfl⟩ : ∃ block, blocks = [block] := by
    cases hturns with
    | cons _ others =>
      cases others
      exact ⟨_, rfl⟩
  rw [List.flatten_cons, List.flatten_nil, List.append_nil] at hus
  subst hus
  obtain ⟨ws, hws, hsums⟩ := exists_of_ends (x := explode
    (fun i => if i < 2 then 0.9 else 0.1) .explode none "explode" 0 [.fresh (.sides 6) 6 0])
    (P := fun us => valueSum us == 19 && faceSum us == 19) (m := 3) (by decide +kernel)
  cases hexplode.symm.trans hws
  obtain ⟨hvalue, hface⟩ : valueSum (Throw.lineUp block) = 19 ∧
      faceSum (Throw.lineUp block) = 19 := by simpa using hsums
  have hvalueSum : valueSum (Throw.lineUp block) = valueSum block :=
    congrArg List.sum (Throw.map_lineUp (fun _ _ => rfl) block)
  have hfaceSum : faceSum (Throw.lineUp block) = faceSum block :=
    congrArg List.sum (Throw.map_lineUp (fun _ _ => rfl) block)
  rw [hvalueSum] at hvalue
  rw [hfaceSum] at hface
  have hrange : InRange (.sides 6) block := by
    rw [InRange, hvalue, hface]
    decide
  have hfolds := hfolds 0 _ _ _ rfl rfl rfl
  have hsums := hfolds.sums hrange
  rw [hvalue, hface] at hsums
  exact ⟨block, v, hexplode, hcompound, hfolds, hrange, hsums⟩

end Run

end Stage

end DiceNotation

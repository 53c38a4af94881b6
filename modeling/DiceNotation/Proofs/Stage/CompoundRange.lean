import DiceNotation.Proofs.Stage.Compounding

/-! How far compounding reaches. What a die takes in is added to its face without a look at the
range, and to its value with one: where the sum is in range both are exact, and where it is not the
face has wrapped around and the value is a float. A die of so many faces that a thousand and one
times as many are in range never gets there. -/

namespace DiceNotation

namespace Throw

/-- A throw that shows a sum and is worth it, as far as the sum is in range. -/
structure ComesTo (v : Throw) (sum : Int) : Prop where
  face : v.face = Int64.ofInt sum
  exact : Number.Fits sum → v.face.toInt = sum ∧ v.value = .int v.face
  beyond : ¬ Number.Fits sum → v.value.isInt = false

theorem ComesTo.place {v : Throw} {sum : Int} (h : v.ComesTo sum) (order : Nat) :
    (v.place order).ComesTo sum :=
  ⟨h.face, h.exact, h.beyond⟩

end Throw

namespace Stage

open Throw (faceSum ComesTo)

variable {samples : Samples} {faces : Faces Int64} {condition : Target Number}

theorem comesTo_compounded {t : Throw} (ht : t.value = .int t.face) {bonus : List Int64}
    (hbonus : ∀ face ∈ bonus, 0 ≤ face.toInt) :
    (compounded t bonus).ComesTo (t.face.toInt + (bonus.map Int64.toInt).sum) := by
  have hface : (compounded t bonus).face =
      Int64.ofInt (t.face.toInt + (bonus.map Int64.toInt).sum) := by
    rw [compounded_eq, Number.ofInt_add_sum]
  have hvalue : (compounded t bonus).value =
      bonus.foldl (fun x face => x + .int face) (.int t.face) := by
    rw [compounded_eq, ht]
    rfl
  refine ⟨hface, fun hfits => ?_, fun hbeyond => ?_⟩
  · have hnonneg : ∀ n ∈ bonus.map Int64.toInt, 0 ≤ n := List.forall_mem_map.mpr hbonus
    have hway := Number.fits_add_sum_take hnonneg (Number.fits_toInt t.face) hfits
    refine ⟨by rw [hface, Number.toInt_ofInt_of_fits hfits], ?_⟩
    rw [hvalue, Number.foldl_add_int hway, Number.ofInt_of_fits hfits, hface]
  · refine Bool.eq_false_iff.mpr fun hint => hbeyond ?_
    rw [hvalue] at hint
    obtain ⟨j, -, hj⟩ := Number.equals_foldl_add hint
    rw [← hj]
    exact Number.fits_toInt j

theorem length_le_of_mem_bonusRuns {cursor : Nat} {ts : List Throw} {bonus : List Int64}
    (h : bonus ∈ bonusRuns samples faces condition cursor ts) : bonus.length ≤ bonusLimit := by
  induction ts generalizing cursor with
  | nil => cases h
  | cons t ts ih =>
    rcases List.mem_cons.mp h with rfl | h
    · exact length_bonusesOf_le faces cursor t
    · exact ih h

theorem sum_le_of_length_le {is : List Int} {n : Nat} {bound : Int} (hbound : 0 ≤ bound)
    (his : ∀ i ∈ is, i ≤ bound) (hn : is.length ≤ n) : is.sum ≤ n * bound := by
  have hsum : is.sum ≤ is.length • bound := List.sum_le_card_nsmul is bound his
  rw [nsmul_eq_mul] at hsum
  exact hsum.trans (Int.mul_le_mul_of_nonneg_right (Int.ofNat_le.mpr hn) hbound)

section Run

variable {count : Int64} {target : Option (Target Number)} {name : String} {cursor stop : Nat}
  {ts vs : List Throw}

theorem toInt_of_shows {face : Int64} (h : (Faces.sides count).Shows face) :
    1 ≤ face.toInt ∧ face.toInt ≤ count.toInt :=
  ⟨Int64.le_iff_toInt_le.mp h.1, Int64.le_iff_toInt_le.mp h.2⟩

/-- A die and the bonus dice that it may bring show no more than the limit allows. -/
theorem faceSum_bounds {t : Throw} {bonus : List Int64} (ht : (Faces.sides count).Shows t.face)
    (hbonus : ∀ face ∈ bonus, (Faces.sides count).Shows face)
    (hlength : bonus.length ≤ bonusLimit) :
    0 < faceSum (withBonuses (.sides count) .explode t bonus) ∧
      faceSum (withBonuses (.sides count) .explode t bonus) ≤ (bonusLimit + 1) * count.toInt := by
  obtain ⟨hlow, hhigh⟩ := toInt_of_shows ht
  have hnonneg : 0 ≤ (bonus.map Int64.toInt).sum := by
    refine List.sum_nonneg (List.forall_mem_map.mpr fun face hface => ?_)
    exact Int.le_trans (by decide) (toInt_of_shows (hbonus face hface)).1
  have hle : (bonus.map Int64.toInt).sum ≤ bonusLimit * count.toInt := by
    refine sum_le_of_length_le (by omega) (List.forall_mem_map.mpr fun face hface => ?_)
      (by rwa [List.length_map])
    exact (toInt_of_shows (hbonus face hface)).2
  rw [faceSum_withBonuses, Int.add_mul, Int.one_mul]
  omega

/-- Dice that compound come to the sums of the blocks that they would have become. Such a sum may be
out of range, but not with so many faces as are in range a thousand and one times. -/
theorem compound_comesTo (hcount : 1 ≤ count) (hkind : ∀ t ∈ ts, t.faces = .sides count)
    (hshown : ∀ t ∈ ts, (Faces.sides count).Shows t.face)
    (hvalues : ∀ t ∈ ts, t.value = .int t.face)
    (hrun : explode samples .compound target name cursor ts = (.ok vs, stop)) :
    ∃ blocks, vs.length = ts.length ∧
      InTurn (Exploded samples (.sides count) (explodesOn (.sides count) target) .explode) cursor ts
        blocks stop ∧
      ∀ (j : Nat) t block v, ts[j]? = some t → blocks[j]? = some block → vs[j]? = some v →
        v.ComesTo (faceSum block) ∧ 0 < faceSum block ∧
          ((bonusLimit + 1) * count.toInt < 0x8000000000000000 → Number.Fits (faceSum block)) := by
  by_cases hts : ts = []
  · subst hts
    cases hrun
    exact ⟨[], rfl, .nil cursor, fun j t block v ht => by cases ht⟩
  have hendless : isEndless (.sides count) (explodesOn (.sides count) target) = false := by
    refine Bool.eq_false_iff.mpr fun h => ?_
    rw [explode_of_isEndless samples name hts hkind h] at hrun
    cases hrun
  have hmode : Explosion.explode ≠ .compound := by decide
  have hproper : (Faces.sides count).lowest ≤ (Faces.sides count).highest := hcount
  have hturns :=
    inTurn_explodeFrom samples (explodesOn (.sides count) target) hmode hproper cursor ts
  rw [explode_of_not_isEndless samples name hkind hendless, explodeFrom_eq,
    flatten_compound] at hrun
  cases hrun
  refine ⟨_, by simp, hturns, ?_⟩
  intro j t block v ht hblock hv
  obtain ⟨bonus, hbonus, rfl, rfl⟩ := exists_bonus_of_getElem? ht hblock hv
  have ht := List.mem_of_getElem? ht
  have hfaces := shows_of_mem_bonusRuns hproper hbonus
  obtain ⟨hpos, hle⟩ := faceSum_bounds (hshown t ht) hfaces (length_le_of_mem_bonusRuns hbonus)
  have hcomes := comesTo_compounded (hvalues t ht) fun face hface =>
    Int.le_trans (by decide) (toInt_of_shows (hfaces face hface)).1
  have hsum : faceSum (withBonuses (.sides count) .explode t bonus) = _ := faceSum_withBonuses
  rw [← hsum] at hcomes
  refine ⟨hcomes.place j, hpos, fun hrange => ?_⟩
  unfold Number.Fits
  exact ⟨Int.le_trans (by decide) (Int.le_of_lt hpos), Int.lt_of_le_of_lt hle hrange⟩

/-- A six that brings two sixes and a one comes to nineteen. -/
theorem compound_comesTo_six : ∃ v block,
    explode (fun i => if i < 2 then 0.9 else 0.1) .compound none "compound" 0
      [.fresh (.sides 6) 6 0] = (.ok [v], 3) ∧
    v.ComesTo (faceSum block) ∧ faceSum block = 19 ∧ v.value.Equals 19 := by
  obtain ⟨vs, hrun, hshows⟩ := exists_of_ends (x := explode
    (fun i => if i < 2 then 0.9 else 0.1) .compound none "compound" 0 [.fresh (.sides 6) 6 0])
    (P := fun vs => vs.map Throw.face == [19]) (m := 3) (by decide +kernel)
  obtain ⟨v, rfl, hface⟩ := List.map_eq_singleton_iff.mp (beq_iff_eq.mp hshows)
  have hcount : (1 : Int64) ≤ 6 := by decide
  have hshown : (Faces.sides 6).Shows 6 := by decide
  obtain ⟨blocks, -, hturns, hcomes⟩ := compound_comesTo hcount
    (List.forall_mem_singleton.mpr rfl) (List.forall_mem_singleton.mpr hshown)
    (List.forall_mem_singleton.mpr rfl) hrun
  generalize hstop : 3 = stop at hturns
  obtain ⟨block, rfl⟩ : ∃ block, blocks = [block] := by
    cases hturns with
    | cons _ others =>
      cases others
      exact ⟨_, rfl⟩
  obtain ⟨hcomes, -, hfits⟩ := hcomes 0 _ _ _ rfl rfl rfl
  obtain ⟨hsum, hvalue⟩ := hcomes.exact (hfits (by decide))
  rw [hface] at hsum hvalue
  subst hstop
  exact ⟨v, block, hrun, hcomes, hsum.symm, hvalue ▸ Number.equals_int 19⟩

/-- Two high faces of a die with all the faces that there can be, and a lower one: the face has
wrapped around, and the value is a float. -/
theorem compound_overflows : ∃ v,
    explode (fun i => if i = 0 then 0.75 else 0.1) .compound
      (some ⟨.atLeast, .int 6000000000000000000⟩) "compound" 0
      [.fresh (.sides Int64.maxValue) 6917529027641081857 0] = (.ok [v], 2) ∧
    v.face.toInt = -3689348814741910269 ∧ v.value.isInt = false := by
  obtain ⟨vs, hrun, hshows⟩ := exists_of_ends (x := explode
    (fun i => if i = 0 then 0.75 else 0.1) .compound (some ⟨.atLeast, .int 6000000000000000000⟩)
      "compound" 0 [.fresh (.sides Int64.maxValue) 6917529027641081857 0])
    (P := fun vs => vs.map (fun v => (v.face.toInt, v.value.isInt)) ==
      [(-3689348814741910269, false)]) (m := 2) (by decide +kernel)
  obtain ⟨v, rfl, hv⟩ := List.map_eq_singleton_iff.mp (beq_iff_eq.mp hshows)
  exact ⟨v, hrun, Prod.mk.inj hv⟩

end Run

end Stage

end DiceNotation

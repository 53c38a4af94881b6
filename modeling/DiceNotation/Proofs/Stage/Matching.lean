import DiceNotation.Proofs.Number.Large
import DiceNotation.Proofs.Outcome.Worth
import Mathlib.Data.Finset.Card

/-! Which throws are matched. Faces are counted over the valid throws, and a face that enough of them
show and that meets the filter marks every valid throw that shows it; so what becomes of a throw hangs
on its face and on how often faces are shown, and not on where it stands. -/

namespace DiceNotation

/-- A throw after matching among others: no more than its flag has changed, and it is matched if it is
valid, shows a face that enough valid throws show, and meets the filter if there is one. -/
structure Throw.MatchedAmong (least : Int64) (filter : Option (Target Number)) (ts : List Throw)
    (t u : Throw) : Prop where
  same : u = { t with matched := u.matched }
  matched : u.matched = true ↔ t.valid = true ∧
    least.toInt ≤ ts.countP (fun t' => t'.valid && t'.face == t.face) ∧
    ∀ condition ∈ filter, condition.accepts (.int t.face) = true

namespace Stage

theorem count_validFaces (face : Int64) (ts : List Throw) :
    (validFaces ts).count face = ts.countP fun t => t.valid && t.face == face := by
  rw [validFaces, List.count, List.countP_map, List.countP_filter]
  exact List.countP_congr fun t _ => by simp [and_comm]

variable {least : Int64} {counted : Bool} {filter : Option (Target Number)} {ts : List Throw}

theorem isMatched_iff {face : Int64} :
    isMatched ⟨.int least, counted, filter⟩ ts face = true ↔
      least.toInt ≤ ts.countP (fun t => t.valid && t.face == face) ∧
        ∀ condition ∈ filter, condition.accepts (.int face) = true := by
  rw [isMatched, Bool.and_eq_true, Number.atMost_int_ofNat, decide_eq_true_eq,
    count_validFaces, Option.all_eq_true]
  exact Iff.rfl

/-- What matching makes of one throw. -/
def markMatch (m : Matching Number) (ts : List Throw) (t : Throw) : Throw :=
  if t.valid && isMatched m ts t.face then { t with matched := true } else t

theorem markMatch_eq (m : Matching Number) (ts : List Throw) (t : Throw) :
    markMatch m ts t = { t with matched := t.matched || (t.valid && isMatched m ts t.face) } := by
  unfold markMatch
  cases t.valid && isMatched m ts t.face with
  | true => simp
  | false => simp

theorem matchedAmong_markMatch {t : Throw} (ht : t.matched = false) :
    t.MatchedAmong least filter ts (markMatch ⟨.int least, counted, filter⟩ ts t) := by
  rw [markMatch_eq]
  refine ⟨rfl, ?_⟩
  rw [ht, Bool.false_or, Bool.and_eq_true, isMatched_iff]

/-- The matches that are counted are the faces that matched throws show. -/
theorem matchCount_eq_card (m : Matching Number) (h : ∀ t ∈ ts, t.matched = false) :
    matchCount m ts = (((withMatches m ts).filter Throw.matched).map Throw.face).toFinset.card := by
  have hnodup : ((validFaces ts).eraseDups.filter (isMatched m ts)).Nodup :=
    (nodup_eraseDups _).filter _
  have hvalid : (withMatches m ts).filter Throw.matched =
      (withMatches m ts).filter fun t => t.valid && t.matched := by
    refine List.filter_congr (List.forall_mem_map.mpr fun t ht => ?_)
    rw [← markMatch, markMatch_eq, h t ht]
    change (t.valid && isMatched m ts t.face) = (t.valid && (t.valid && isMatched m ts t.face))
    rw [← Bool.and_assoc, Bool.and_self]
  rw [matchCount, ← List.toFinset_card_of_nodup hnodup, hvalid]
  congr 1
  ext face
  rw [List.mem_toFinset, List.mem_toFinset, ← mem_matchedFaces_withMatches m h, matchedFaces,
    List.mem_eraseDups]

theorem validFaces_perm {us : List Throw} (h : us.Perm ts) : (validFaces us).Perm (validFaces ts) :=
  (h.filter _).map _

theorem matchCount_of_perm (m : Matching Number) {us : List Throw} (h : us.Perm ts) :
    matchCount m us = matchCount m ts := by
  have hfaces := validFaces_perm h
  have hmatched : isMatched m us = isMatched m ts := isMatched_of_perm m hfaces
  refine ((List.perm_ext_iff_of_nodup ((nodup_eraseDups _).filter _)
    ((nodup_eraseDups _).filter _)).mpr fun face => ?_).length_eq
  rw [List.mem_filter, List.mem_filter, List.mem_eraseDups, List.mem_eraseDups, hfaces.mem_iff,
    hmatched]

/-- Matching marks the valid throws of each face that is shown often enough and meets the filter, and
counts these faces. A list in another order is matched throw by throw in the same way. -/
theorem withMatches_matchedAmong (least : Int64) (counted : Bool) (filter : Option (Target Number))
    (hunmatched : ∀ t ∈ ts, t.matched = false) :
    let m : Matching Number := ⟨.int least, counted, filter⟩
    List.Forall₂ (Throw.MatchedAmong least filter ts) ts (withMatches m ts) ∧
    matchCount m ts = (((withMatches m ts).filter Throw.matched).map Throw.face).toFinset.card ∧
    ∃ mark : Throw → Throw, ∀ us : List Throw, us.Perm ts →
      withMatches m us = us.map mark ∧ matchCount m us = matchCount m ts := by
  intro m
  refine ⟨?_, matchCount_eq_card m hunmatched, markMatch m ts, fun us hus => ⟨?_, ?_⟩⟩
  · exact List.forall₂_map_right_iff.mpr (List.forall₂_same.mpr fun t ht =>
      matchedAmong_markMatch (hunmatched t ht))
  · have hmatched : isMatched m us = isMatched m ts := isMatched_of_perm m (validFaces_perm hus)
    refine List.map_congr_left fun t _ => ?_
    change markMatch m us t = markMatch m ts t
    rw [markMatch_eq, markMatch_eq, hmatched]
  · exact matchCount_of_perm m hus

/-- Three threes, of which one is not valid, and a five: with two or more of a kind asked for, the
two valid threes are matched, as one face. -/
theorem withMatches_matchedAmong_threes : ∃ ts : List Throw,
    (∀ t ∈ ts, t.matched = false) ∧
    (withMatches ⟨.int 2, false, none⟩ ts).map Throw.matched = [true, false, false, true] ∧
    List.Forall₂ (Throw.MatchedAmong 2 none ts) ts (withMatches ⟨.int 2, false, none⟩ ts) := by
  let dropped (t : Throw) : Throw := { t with status := t.status.drop }
  have hunmatched : ∀ t ∈ [Throw.fresh (.sides 6) 3 0, Throw.fresh (.sides 6) 5 1,
      dropped (.fresh (.sides 6) 3 2), .fresh (.sides 6) 3 3], t.matched = false := by decide
  exact ⟨_, hunmatched, by decide +kernel,
    (withMatches_matchedAmong 2 false none hunmatched).1⟩

end Stage

end DiceNotation

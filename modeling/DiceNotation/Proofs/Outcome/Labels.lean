import DiceNotation.Outcome.Assembly
import DiceNotation.Proofs.Outcome.Parts

/-! Outcomes with other labels. No way to put outcomes together looks at the labels of what it puts
together, so that changing labels before comes to the same as changing them after. -/

namespace DiceNotation

section Labels

variable (φ : String → Option String)

mutual
/-- An outcome with its labels, at any depth, changed or taken off. -/
def Outcome.mapLabels : Outcome → Outcome
  | ⟨status, body, label⟩ => ⟨status, body.mapLabels, label.bind φ⟩

def Body.mapLabels : Body → Body
  | .number => .number
  | .die count faces throws => .die count.mapLabels (mapFacesLabels faces) throws
  | .diceSum head tail => .diceSum head.mapLabels (mapDiceTailLabels tail)
  | .arithmetic head tail => .arithmetic head.mapLabels (mapMathTailLabels tail)
  | .group members => .group (mapMembersLabels members)
  | .function f argument => .function f argument.mapLabels
  | .replacement name argument => .replacement name argument.mapLabels

def mapFacesLabels : Option Outcome → Option Outcome
  | none => none
  | some o => some o.mapLabels

def mapDiceTailLabels : List (Sign × Outcome) → List (Sign × Outcome)
  | [] => []
  | (op, o) :: rest => (op, o.mapLabels) :: mapDiceTailLabels rest

def mapMathTailLabels : List (Operator × Outcome) → List (Operator × Outcome)
  | [] => []
  | (op, o) :: rest => (op, o.mapLabels) :: mapMathTailLabels rest

def mapMembersLabels : List Outcome → List Outcome
  | [] => []
  | o :: os => o.mapLabels :: mapMembersLabels os
end

namespace Outcome

@[simp] theorem status_mapLabels (o : Outcome) : (mapLabels φ o).status = o.status := by
  obtain ⟨status, body, label⟩ := o
  rfl

@[simp] theorem value_mapLabels (o : Outcome) : (mapLabels φ o).value = o.value :=
  congrArg Status.value (status_mapLabels φ o)

@[simp] theorem valid_mapLabels (o : Outcome) : (mapLabels φ o).valid = o.valid :=
  congrArg Status.valid (status_mapLabels φ o)

theorem mapLabels_place (o : Outcome) (order : Nat) :
    mapLabels φ (o.place order) = (mapLabels φ o).place order := by
  obtain ⟨status, body, label⟩ := o
  rfl

mutual
theorem pool_mapLabels : (o : Outcome) → (mapLabels φ o).pool = o.pool
  | ⟨_, .diceSum head tail, _⟩ => by
    simp only [mapLabels, Body.mapLabels, pool, pool_mapLabels head, poolTail_mapLabels tail]
  | ⟨_, .die .., _⟩ | ⟨_, .number, _⟩ | ⟨_, .arithmetic .., _⟩ | ⟨_, .group _, _⟩
  | ⟨_, .function .., _⟩ | ⟨_, .replacement .., _⟩ => rfl

theorem poolTail_mapLabels : (tail : List (Sign × Outcome)) →
    poolTail (mapDiceTailLabels φ tail) = poolTail tail
  | [] => rfl
  | (_, o) :: rest => by
    simp only [mapDiceTailLabels, poolTail, pool_mapLabels o, poolTail_mapLabels rest]
end

mutual
theorem refill_mapLabels : (o : Outcome) → (ss : List Status) →
    (mapLabels φ o).refill ss = Prod.map (mapLabels φ) id (o.refill ss)
  | ⟨_, .diceSum head tail, _⟩, ss => by
    simp only [mapLabels, Body.mapLabels, refill, refill_mapLabels head, refillTail_mapLabels tail,
      Prod.map, id]
  | ⟨_, .die .., _⟩, _ | ⟨_, .number, _⟩, _ => rfl
  | ⟨_, .arithmetic .., _⟩, ss | ⟨_, .group _, _⟩, ss | ⟨_, .function .., _⟩, ss
  | ⟨_, .replacement .., _⟩, ss => by cases ss <;> rfl

theorem refillTail_mapLabels : (tail : List (Sign × Outcome)) → (ss : List Status) →
    refillTail (mapDiceTailLabels φ tail) ss =
      Prod.map (mapDiceTailLabels φ) id (refillTail tail ss)
  | [], _ => rfl
  | (op, o) :: rest, ss => by
    simp only [mapDiceTailLabels, refillTail, refill_mapLabels o, refillTail_mapLabels rest,
      Prod.map, id]
end

theorem contribution_mapLabels (o : Outcome) : (mapLabels φ o).contribution = o.contribution := by
  obtain ⟨status, body, label⟩ := o
  cases body <;> rfl

theorem contributions_mapLabels (tail : List (Sign × Outcome)) :
    (mapDiceTailLabels φ tail).map (fun t => t.2.contribution) =
      tail.map fun t => t.2.contribution := by
  induction tail with
  | nil => rfl
  | cons t tail ih => simp only [mapDiceTailLabels, List.map_cons, contribution_mapLabels, ih]

mutual
theorem resum_mapLabels : (o : Outcome) → (mapLabels φ o).resum = mapLabels φ o.resum
  | ⟨_, .diceSum head tail, _⟩ => by
    simp only [mapLabels, Body.mapLabels, resum, resum_mapLabels head, resumTail_mapLabels tail,
      contribution_mapLabels, contributions_mapLabels]
  | ⟨_, .die .., _⟩ | ⟨_, .number, _⟩ | ⟨_, .arithmetic .., _⟩ | ⟨_, .group _, _⟩
  | ⟨_, .function .., _⟩ | ⟨_, .replacement .., _⟩ => rfl

theorem resumTail_mapLabels : (tail : List (Sign × Outcome)) →
    resumTail (mapDiceTailLabels φ tail) = mapDiceTailLabels φ (resumTail tail)
  | [] => rfl
  | (_, o) :: rest => by
    simp only [mapDiceTailLabels, resumTail, resum_mapLabels o, resumTail_mapLabels rest]
end

theorem mapMembersLabels_eq (members : List Outcome) :
    mapMembersLabels φ members = members.map (mapLabels φ) := by
  induction members with
  | nil => rfl
  | cons o members ih => rw [mapMembersLabels, ih, List.map_cons]

theorem isDice_mapLabels (o : Outcome) : (mapLabels φ o).isDice = o.isDice := by
  obtain ⟨status, body, label⟩ := o
  cases body <;> rfl

theorem pooled?_map_mapLabels (members : List Outcome) :
    pooled? (members.map (mapLabels φ)) = (pooled? members).map (mapLabels φ) := by
  match members with
  | [o] =>
    simp only [List.map_cons, List.map_nil, pooled?, isDice_mapLabels]
    split <;> rfl
  | [] | _ :: _ :: _ => rfl

theorem entries_map_mapLabels (members : List Outcome) :
    entries (members.map (mapLabels φ)) = entries members := by
  unfold entries
  rw [pooled?_map_mapLabels]
  cases pooled? members with
  | some o => exact pool_mapLabels φ o
  | none => simp [Function.comp_def]

theorem withStatuses_map_mapLabels (members : List Outcome) (ss : List Status) :
    withStatuses (members.map (mapLabels φ)) ss = (withStatuses members ss).map (mapLabels φ) := by
  induction members generalizing ss with
  | nil => cases ss <;> rfl
  | cons o members ih =>
    obtain ⟨status, body, label⟩ := o
    cases ss with
    | nil => rfl
    | cons s ss => exact congrArg (_ :: ·) (ih ss)

theorem withEntries_map_mapLabels (members : List Outcome) (ss : List Status) :
    withEntries (members.map (mapLabels φ)) ss = (withEntries members ss).map (mapLabels φ) := by
  unfold withEntries
  rw [pooled?_map_mapLabels]
  cases pooled? members with
  | some o =>
    simp only [Option.map_some, refill_mapLabels, Prod.map, resum_mapLabels, List.map_cons,
      List.map_nil]
  | none => exact withStatuses_map_mapLabels φ members ss

theorem total_map_mapLabels (members : List Outcome) :
    total (members.map (mapLabels φ)) = total members := by
  simp only [total, List.filter_map, List.map_map, Function.comp_def, valid_mapLabels,
    value_mapLabels]

theorem mapLabels_ofMembers (members : List Outcome) :
    mapLabels φ (ofMembers members) = ofMembers (members.map (mapLabels φ)) := by
  rw [ofMembers, ofMembers, total_map_mapLabels, ← mapMembersLabels_eq]
  rfl

theorem mapLabels_ofGroup (members : List Outcome) (hasTargets : Bool) (ss : List Status) :
    mapLabels φ (ofGroup members hasTargets ss) =
      ofGroup (members.map (mapLabels φ)) hasTargets ss := by
  unfold ofGroup
  split
  · rw [withEntries_map_mapLabels, ← mapMembersLabels_eq]
    rfl
  · rw [withEntries_map_mapLabels, mapLabels_ofMembers]

theorem mapLabels_ofDie (count : Outcome) (faces : Option Outcome) (hasTargets : Bool)
    (matching : Option (Matching Number)) (sorting : Option Sorting) (throws : List Throw) :
    mapLabels φ (ofDie count faces hasTargets matching sorting throws) =
      ofDie (mapLabels φ count) (mapFacesLabels φ faces) hasTargets matching sorting throws :=
  rfl

end Outcome

theorem mapDiceTailLabels_eq (tail : List (Sign × Outcome)) :
    mapDiceTailLabels φ tail = tail.map (Prod.map id (Outcome.mapLabels φ)) := by
  induction tail with
  | nil => rfl
  | cons t tail ih => rw [mapDiceTailLabels, ih, List.map_cons, Prod.map, id]

theorem mapMathTailLabels_eq (tail : List (Operator × Outcome)) :
    mapMathTailLabels φ tail = tail.map (Prod.map id (Outcome.mapLabels φ)) := by
  induction tail with
  | nil => rfl
  | cons t tail ih => rw [mapMathTailLabels, ih, List.map_cons, Prod.map, id]

namespace Outcome

theorem operands_mapLabels (o : Outcome) :
    (mapLabels φ o).operands = o.operands.map (mapLabels φ) := by
  obtain ⟨status, body, label⟩ := o
  cases body with
  | die count faces throws => cases faces <;> rfl
  | diceSum head tail =>
    rw [mapLabels, Body.mapLabels, mapDiceTailLabels_eq]
    exact congrArg (_ :: ·) (Nested.map_snd_map_tail (mapLabels φ) tail)
  | arithmetic head tail =>
    rw [mapLabels, Body.mapLabels, mapMathTailLabels_eq]
    exact congrArg (_ :: ·) (Nested.map_snd_map_tail (mapLabels φ) tail)
  | group members => exact mapMembersLabels_eq φ members
  | number | function _ _ | replacement _ _ => rfl

theorem parts_mapLabels (o : Outcome) :
    Nested.parts (mapLabels φ o) = (Nested.parts o).map (mapLabels φ) := by
  induction o using Nested.induct with
  | step o ih =>
    have hchildren : Nested.children (mapLabels φ o) = (Nested.children o).map (mapLabels φ) :=
      operands_mapLabels φ o
    rw [Nested.parts_eq, Nested.parts_eq o, hchildren, List.map_cons, List.flatMap_map,
      List.map_flatMap]
    exact congrArg (_ :: ·) (List.flatMap_congr ih)

end Outcome

variable {φ}

theorem Outcome.bodyMapLabels_eq_self {o : Outcome}
    (h : ∀ p ∈ o.operands, mapLabels φ p = p) : o.body.mapLabels φ = o.body := by
  obtain ⟨status, body, label⟩ := o
  cases body with
  | number => rfl
  | die count faces throws =>
    obtain ⟨hcount, hfaces⟩ := List.forall_mem_cons.mp h
    rw [Body.mapLabels, hcount]
    cases faces with
    | none => rfl
    | some o => rw [mapFacesLabels, hfaces o (List.mem_singleton_self o)]
  | diceSum head tail =>
    obtain ⟨hhead, htail⟩ := List.forall_mem_cons.mp h
    rw [Body.mapLabels, hhead, mapDiceTailLabels_eq, Nested.map_tail_eq_self htail]
  | arithmetic head tail =>
    obtain ⟨hhead, htail⟩ := List.forall_mem_cons.mp h
    rw [Body.mapLabels, hhead, mapMathTailLabels_eq, Nested.map_tail_eq_self htail]
  | group members =>
    have hmembers : members.map (mapLabels φ) = members.map id := List.map_congr_left h
    rw [Body.mapLabels, mapMembersLabels_eq, hmembers, List.map_id]
  | function _ argument | replacement _ argument =>
    rw [Body.mapLabels, h argument (List.mem_singleton_self argument)]

/-- Where no label is to be changed, none is, and nothing else. -/
theorem Outcome.mapLabels_eq_self (o : Outcome)
    (h : ∀ p ∈ Nested.parts o, p.label.bind φ = p.label) : mapLabels φ o = o := by
  induction o using Nested.induct with
  | step o ih =>
    obtain ⟨hlabel, hparts⟩ := (Nested.forall_parts_iff o).mp h
    have hbody := bodyMapLabels_eq_self fun p hp => ih p hp (hparts p hp)
    obtain ⟨status, body, label⟩ := o
    rw [mapLabels, hbody, hlabel]

end Labels

namespace Outcome

theorem mapLabels_some (o : Outcome) : o.mapLabels some = o :=
  o.mapLabels_eq_self fun p _ => Option.bind_fun_some p.label

/-- An outcome without the labels at any depth. -/
def unlabelled : Outcome → Outcome :=
  mapLabels fun _ => none

theorem label_of_mem_parts_unlabelled (o : Outcome) :
    ∀ p ∈ Nested.parts o.unlabelled, p.label = none := by
  rw [unlabelled, parts_mapLabels]
  refine List.forall_mem_map.mpr fun p _ => ?_
  obtain ⟨status, body, label⟩ := p
  exact Option.bind_fun_none label

theorem unlabelled_unlabelled (o : Outcome) : o.unlabelled.unlabelled = o.unlabelled :=
  mapLabels_eq_self _ fun p hp => by rw [label_of_mem_parts_unlabelled o p hp, Option.bind_none]

theorem unlabelled_relabel (o : Outcome) (label : Option String) :
    (o.relabel label).unlabelled = o.unlabelled := by
  obtain ⟨status, body, old⟩ := o
  cases label with
  | none => rfl
  | some label => simp only [unlabelled, relabel, mapLabels, Option.bind_fun_none]

end Outcome

end DiceNotation

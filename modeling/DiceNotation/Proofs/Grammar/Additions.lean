import DiceNotation.Proofs.Grammar.Runs

/-! What follows a die or a group, one addition after the other. The loops for dice and for groups
differ in the keywords that they know and in where they put what they have read; what they read is
one list of additions. -/

namespace DiceNotation

open Token (Kind)

inductive Addition where
  | modifier (m : Modifier Formula)
  | sorting (order : Sorting)
  | matching (m : Matching Formula)

namespace Addition

def modifiers : Addition → List (Modifier Formula)
  | .modifier m => [m]
  | _ => []

def mod? : Addition → Option (Modifier Formula)
  | .modifier m => if m.isTarget then none else some m
  | _ => none

def target? : Addition → Option (Modifier Formula)
  | .modifier m => if m.isTarget then some m else none
  | _ => none

def matching? : Addition → Option (Matching Formula)
  | .matching m => some m
  | _ => none

def sorting? : Addition → Option Sorting
  | .sorting order => some order
  | _ => none

/-- Whether a condition right after the addition would be taken for a part of it. -/
def isOpen : Addition → Bool
  | .modifier (.explode _ none) | .modifier (.reroll _ none) => true
  | .matching ⟨_, _, none⟩ => true
  | _ => false

/-- Whether the addition is a condition that counts successes, which has no keyword. -/
def isCondition : Addition → Bool
  | .modifier (.success _) => true
  | _ => false

end Addition

/-- A die with one more addition, in the place where it belongs. -/
def Die.add (d : Die Formula) : Addition → Die Formula
  | .modifier m =>
    if m.isTarget then { d with targets := d.targets ++ [m] } else { d with mods := d.mods ++ [m] }
  | .sorting order => { d with sorting := some order }
  | .matching m => { d with matching := some m }

/-- A die with additions has each kind of them in its place; of sorts and of matchings the last one
counts. -/
theorem Die.foldl_add (d : Die Formula) (xs : List Addition) : xs.foldl Die.add d =
    ⟨d.count, d.faces, d.mods ++ xs.filterMap Addition.mod?,
      d.targets ++ xs.filterMap Addition.target?,
      (xs.filterMap Addition.matching?).getLast?.or d.matching,
      (xs.filterMap Addition.sorting?).getLast?.or d.sorting⟩ := by
  have hlast {α : Type} (a : α) (as : List α) (o : Option α) :
      as.getLast?.or (some a) = (a :: as).getLast?.or o := by
    rw [List.getLast?_cons]
    cases as.getLast? <;> rfl
  induction xs generalizing d with
  | nil => simp
  | cons x xs ih =>
    rw [List.foldl_cons, ih]
    cases x with
    | modifier m =>
      cases hm : m.isTarget <;>
        simp [add, hm, Addition.mod?, Addition.target?, Addition.matching?, Addition.sorting?]
    | sorting order => rw [add, hlast order _ d.sorting]; rfl
    | matching m => rw [add, hlast m _ d.matching]; rfl

/-- What additions follow. -/
inductive Host where
  | die
  | group

namespace Parser

/-- What a keyword waits for: a count or a condition that may be left out, a condition, nothing, or
what is looked for in matching. -/
inductive Slot where
  | counted (make : Formula → Modifier Formula)
  | optional (make : Option (Target Formula) → Modifier Formula)
  | required (make : Target Formula → Modifier Formula)
  | sorting (order : Sorting)
  | matching (counted : Bool)

def Slot.fill (inner : Parser Formula) : Slot → Parser Addition
  | .counted make => (fun f => .modifier (make (f.getD (.int 1)))) <$> value? inner
  | .optional make => (fun t => .modifier (make t)) <$> target? inner
  | .required make => (fun t => .modifier (make t)) <$> target inner
  | .sorting order => pure (.sorting order)
  | .matching count => .matching <$> Parser.matching inner count

/-- The keywords that the host knows. -/
def slot? : Host → Kind → Option Slot
  | .die, k =>
    (selection? k).map .counted
      <|> (explosion? k).map (fun mode => .optional (.explode mode))
      <|> (reroll? k).map (fun once => .optional (.reroll once))
      <|> (critical? k).map .required
      <|> (failure? k).map (fun _ => .required .failure)
      <|> (sorting? k).map .sorting
      <|> (matching? k).map .matching
  | .group, k =>
    (selection? k).map .counted <|> (failure? k).map (fun _ => .required .failure)

/-- Additions as long as there are any. A condition is one without a keyword. -/
def additions (host : Host) (inner : Parser Formula) : Nat → Parser (List Addition)
  | 0 => pure []
  | fuel + 1 => do
    if let some relation ← choose relation? then
      let t ← comparison inner relation
      return .modifier (.success t) :: (← additions host inner fuel)
    if let some slot ← choose (slot? host) then
      let x ← slot.fill inner
      return x :: (← additions host inner fuel)
    return []

section Runs

variable {inner : Parser Formula} {host : Host} {n : Nat} {d : Die Formula} {t : Token}
  {ts : List Token}

theorem relation?_of_slot? {k : Kind} {slot : Slot} (h : slot? host k = some slot) :
    relation? k = none := by
  cases host <;> cases k <;> first | rfl | cases h

theorem additions_comparison {r : Relation} (h : relation? t.kind = some r) :
    additions host inner (n + 1) (t :: ts) = (comparison inner r >>= fun c =>
      (Addition.modifier (.success c) :: ·) <$> additions host inner n) ts := by
  rw [additions, bind_run (choose_run_some h)]
  simp only [map_eq_pure_bind]

theorem additions_slot {slot : Slot} (h : slot? host t.kind = some slot) :
    additions host inner (n + 1) (t :: ts) = (slot.fill inner >>= fun x =>
      (x :: ·) <$> additions host inner n) ts := by
  rw [additions, bind_run (choose_cons_none (relation?_of_slot? h))]
  dsimp only
  rw [bind_run (choose_run_some h)]
  simp only [map_eq_pure_bind]

theorem additions_stop (h : ∀ t ∈ ts.head?, relation? t.kind = none ∧ slot? host t.kind = none)
    (n : Nat) : additions host inner n ts = .ok ([], ts) := by
  cases n with
  | zero => rfl
  | succ n =>
    rw [additions, bind_run (choose_run_none fun t ht => (h t ht).1)]
    dsimp only
    rw [bind_run (choose_run_none fun t ht => (h t ht).2)]
    rfl

theorem selecting_run {make : Formula → Modifier Formula} (h : selection? t.kind = some make) :
    selecting inner (t :: ts) = ((fun f => some (make (f.getD (.int 1)))) <$> value? inner) ts := by
  rw [selecting, bind_run (choose_run_some h), map_eq_pure_bind]

theorem selecting_run_none (h : selection? t.kind = none) :
    selecting inner (t :: ts) = .ok (none, t :: ts) := by
  rw [selecting, bind_run (choose_cons_none h)]
  rfl

theorem throwing_run_explosion {mode : Explosion} (h : explosion? t.kind = some mode) :
    throwing inner (t :: ts) = ((fun c => some (.explode mode c)) <$> target? inner) ts := by
  rw [throwing, bind_run (choose_run_some h), map_eq_pure_bind]

theorem throwing_run_reroll {once : Bool} (hexplosion : explosion? t.kind = none)
    (h : reroll? t.kind = some once) :
    throwing inner (t :: ts) = ((fun c => some (.reroll once c)) <$> target? inner) ts := by
  rw [throwing, bind_run (choose_cons_none hexplosion)]
  dsimp only
  rw [bind_run (choose_run_some h), map_eq_pure_bind]

theorem throwing_run_critical {make : Target Formula → Modifier Formula}
    (hexplosion : explosion? t.kind = none) (hreroll : reroll? t.kind = none)
    (h : critical? t.kind = some make) :
    throwing inner (t :: ts) = ((fun c => some (make c)) <$> target inner) ts := by
  rw [throwing, bind_run (choose_cons_none hexplosion)]
  dsimp only
  rw [bind_run (choose_cons_none hreroll)]
  dsimp only
  rw [bind_run (choose_run_some h), map_eq_pure_bind]

theorem throwing_run_none (hexplosion : explosion? t.kind = none) (hreroll : reroll? t.kind = none)
    (hcritical : critical? t.kind = none) : throwing inner (t :: ts) = .ok (none, t :: ts) := by
  rw [throwing, bind_run (choose_cons_none hexplosion)]
  dsimp only
  rw [bind_run (choose_cons_none hreroll)]
  dsimp only
  rw [bind_run (choose_cons_none hcritical)]
  rfl

theorem counting_run_failure (h : t.kind = .failure) :
    counting inner (t :: ts) = ((fun c => some (.failure c)) <$> target inner) ts := by
  obtain ⟨k, start, stop, text⟩ := t
  obtain rfl : k = .failure := h
  rw [map_eq_pure_bind]
  rfl

theorem counting_run_comparison {r : Relation} (h : relation? t.kind = some r) :
    counting inner (t :: ts) = ((fun c => some (.success c)) <$> comparison inner r) ts := by
  have hcomparator : t.kind.isComparator = true := by
    rw [isComparator_iff, h]
    rfl
  rw [counting, bind_run (peek_cons rfl), Option.any_some, if_pos hcomparator,
    bind_congr_run (target_run_comparison h), map_eq_pure_bind]

theorem dieRest_slot {slot : Slot} (h : slot? .die t.kind = some slot) :
    dieRest inner (n + 1) d (t :: ts) =
      (slot.fill inner >>= fun x => dieRest inner n (d.add x)) ts := by
  obtain ⟨k, start, stop, text⟩ := t
  rw [dieRest]
  cases k <;> cases h
  case dice | keep | keepHighest | keepLowest | dropHighest | dropLowest =>
    rw [bind_congr_run (selecting_run rfl)]
    simp only [Slot.fill, bind_map_left]
    rfl
  all_goals
    rw [bind_run (selecting_run_none rfl)]
    dsimp only
  case explode | compound | penetrate =>
    rw [bind_congr_run (throwing_run_explosion rfl)]
    simp only [Slot.fill, bind_map_left]
    rfl
  case reroll | rerollOnce =>
    rw [bind_congr_run (throwing_run_reroll rfl rfl)]
    simp only [Slot.fill, bind_map_left]
    rfl
  case critSuccess | critFailure =>
    rw [bind_congr_run (throwing_run_critical rfl rfl rfl)]
    simp only [Slot.fill, bind_map_left]
    rfl
  case failure =>
    rw [bind_run (throwing_run_none rfl rfl rfl)]
    dsimp only
    rw [bind_congr_run (counting_run_failure rfl)]
    simp only [Slot.fill, bind_map_left]
    rfl
  case sort | sortAscending | sortDescending => rfl
  case same | sameCount =>
    simp only [Slot.fill, bind_map_left]
    rfl

theorem dieRest_comparison {r : Relation} (h : relation? t.kind = some r) :
    dieRest inner (n + 1) d (t :: ts) = (comparison inner r >>= fun c =>
      dieRest inner n (d.add (.modifier (.success c)))) ts := by
  have hcounting : counting inner (t :: ts) = _ := counting_run_comparison h
  obtain ⟨k, start, stop, text⟩ := t
  rw [dieRest]
  cases k <;> cases h
  all_goals
    rw [bind_run (selecting_run_none rfl)]
    dsimp only
    rw [bind_run (throwing_run_none rfl rfl rfl)]
    dsimp only
    rw [bind_congr_run hcounting]
    simp only [bind_map_left]
    rfl

theorem dieRest_stop (h : ∀ t ∈ ts.head?, relation? t.kind = none ∧ slot? .die t.kind = none)
    (n : Nat) : dieRest inner n d ts = .ok (d, ts) := by
  cases n with
  | zero => rfl
  | succ n =>
    cases ts with
    | nil => rfl
    | cons t ts =>
      obtain ⟨hrelation, hslot⟩ := h t rfl
      obtain ⟨k, start, stop, text⟩ := t
      cases k <;> first
        | rfl
        | exact absurd hrelation (Option.some_ne_none _)
        | exact absurd hslot (Option.some_ne_none _)

/-- A die takes up its additions one by one. -/
theorem dieRest_eq (n : Nat) (d : Die Formula) :
    dieRest inner n d = (fun xs => xs.foldl Die.add d) <$> additions .die inner n := by
  induction n generalizing d with
  | zero => rfl
  | succ n ih =>
    funext ts
    cases ts with
    | nil => rfl
    | cons t ts =>
      cases hrelation : relation? t.kind with
      | some r =>
        rw [dieRest_comparison hrelation, map_congr_run (additions_comparison hrelation)]
        simp only [ih, map_bind, Functor.map_map, List.foldl_cons]
      | none =>
        cases hslot : slot? .die t.kind with
        | some slot =>
          rw [dieRest_slot hslot, map_congr_run (additions_slot hslot)]
          simp only [ih, map_bind, Functor.map_map, List.foldl_cons]
        | none =>
          have hstop : ∀ u ∈ (t :: ts).head?, relation? u.kind = none ∧ slot? .die u.kind = none :=
            fun u hu => by
              obtain rfl : t = u := by simpa using hu
              exact ⟨hrelation, hslot⟩
          rw [dieRest_stop hstop, map_run (additions_stop hstop _)]
          rfl

theorem groupRest_slot {slot : Slot} (h : slot? .group t.kind = some slot) :
    groupRest inner (n + 1) (t :: ts) =
      (slot.fill inner >>= fun x => (x.modifiers ++ ·) <$> groupRest inner n) ts := by
  obtain ⟨k, start, stop, text⟩ := t
  rw [groupRest]
  cases k <;> cases h
  case dice | keep | keepHighest | keepLowest | dropHighest | dropLowest =>
    rw [bind_congr_run (selecting_run rfl)]
    simp only [Slot.fill, bind_map_left]
    simp only [map_eq_pure_bind]
    rfl
  case failure =>
    rw [bind_run (selecting_run_none rfl)]
    dsimp only
    rw [bind_congr_run (counting_run_failure rfl)]
    simp only [Slot.fill, bind_map_left]
    simp only [map_eq_pure_bind]
    rfl

theorem groupRest_comparison {r : Relation} (h : relation? t.kind = some r) :
    groupRest inner (n + 1) (t :: ts) = (comparison inner r >>= fun c =>
      (Modifier.success c :: ·) <$> groupRest inner n) ts := by
  have hcounting : counting inner (t :: ts) = _ := counting_run_comparison h
  obtain ⟨k, start, stop, text⟩ := t
  rw [groupRest]
  cases k <;> cases h
  all_goals
    rw [bind_run (selecting_run_none rfl)]
    dsimp only
    rw [bind_congr_run hcounting]
    simp only [bind_map_left]
    simp only [map_eq_pure_bind]

theorem groupRest_stop (h : ∀ t ∈ ts.head?, relation? t.kind = none ∧ slot? .group t.kind = none)
    (n : Nat) : groupRest inner n ts = .ok ([], ts) := by
  cases n with
  | zero => rfl
  | succ n =>
    cases ts with
    | nil => rfl
    | cons t ts =>
      obtain ⟨hrelation, hslot⟩ := h t rfl
      obtain ⟨k, start, stop, text⟩ := t
      cases k <;> first
        | rfl
        | exact absurd hrelation (Option.some_ne_none _)
        | exact absurd hslot (Option.some_ne_none _)

/-- A group knows no additions but modifiers. -/
theorem groupRest_eq (n : Nat) :
    groupRest inner n = (fun xs => xs.flatMap Addition.modifiers) <$> additions .group inner n := by
  induction n with
  | zero => rfl
  | succ n ih =>
    funext ts
    cases ts with
    | nil => rfl
    | cons t ts =>
      cases hrelation : relation? t.kind with
      | some r =>
        rw [groupRest_comparison hrelation, map_congr_run (additions_comparison hrelation)]
        simp only [ih, map_bind, Functor.map_map, List.flatMap_cons]
        rfl
      | none =>
        cases hslot : slot? .group t.kind with
        | some slot =>
          rw [groupRest_slot hslot, map_congr_run (additions_slot hslot)]
          simp only [ih, map_bind, Functor.map_map, List.flatMap_cons]
        | none =>
          have hstop : ∀ u ∈ (t :: ts).head?, relation? u.kind = none ∧ slot? .group u.kind = none :=
            fun u hu => by
              obtain rfl : t = u := by simpa using hu
              exact ⟨hrelation, hslot⟩
          rw [groupRest_stop hstop, map_run (additions_stop hstop _)]
          rfl

end Runs

end Parser

end DiceNotation

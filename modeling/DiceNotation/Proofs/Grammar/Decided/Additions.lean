import DiceNotation.Proofs.Grammar.Decided.Values

/-! Additions are decided. A condition goes to the addition before it where that one can take it, so
an addition that is left open has no condition after it. -/

namespace DiceNotation

open Token (Kind Piece Genuine)

namespace Parser

section Additions

variable {host : Host} {k : Kind} {slot : Slot} {text : List Char} {xs ys : List Piece}

theorem decides_slot (text : List Char) (hI : DecidedBelow (ys.length + 1))
    (hk : slot? host k = some slot) :
    Decides (fun n _ => slot.fill (formula n))
      (fun x ps => Grammar (.addition host x) ((k, text) :: ps)) ys := by
  have hbelow : DecidedBelow ys.length := hI.mono (Nat.le_succ _)
  cases slot with
  | counted make =>
    have hcount := (decides_count hbelow (.int 1)).map (g := fun f => Addition.modifier (make f))
      (N := fun x ps => Grammar (.addition host x) ((k, text) :: ps)) fun _ _ h => .counted hk h
    simp only [Functor.map_map] at hcount
    exact hcount
  | optional make => exact (decides_condition hbelow).map fun _ _ h => .optional hk h
  | required make => exact (decides_target hbelow).map fun _ _ h => .required hk h
  | sorting order => exact .done (.sorting hk) fun _ _ _ _ => rfl
  | matching counted =>
    have hmatching : Decides (fun n _ => Parser.matching (formula n) counted)
        (fun m ps => Grammar (.addition host (.matching m)) ((k, text) :: ps)) ys := by
      simp only [matching_eq]
      refine (decides_count hbelow (.int 2)).bind (fun f ps qs hys hf _ => ?_) fun f ps hf => ?_
      · have hqs : DecidedBelow qs.length := hbelow.mono (length_le_of_append hys)
        exact (decides_filter hqs).map fun _ _ h => .matching hk hf h
      · exact ⟨[], _, genuine_nil, .matching hk hf .unfiltered⟩
    exact hmatching.map fun _ _ h => h

/-- An addition is left open only where no condition follows. -/
theorem relation?_of_isOpen {inner : Parser Formula} {x : Addition} {ts rest : List Token}
    (hk : slot? host k = some slot) (h : slot.fill inner ts = .ok (x, rest))
    (hx : x.isOpen = true) : ∀ t ∈ rest.head?, relation? t.kind = none := by
  have hskipped {q : Kind → Bool} {us : List Token} (hq : ∀ k, q k = false → relation? k = none)
      (h : (do if (← peek).any q then some <$> target inner else pure none :
        Parser (Option (Target Formula))) us = .ok (none, rest)) :
      ∀ t ∈ rest.head?, relation? t.kind = none := by
    rw [bind_run peek_run, Option.any_map] at h
    split at h
    · obtain ⟨t, -, ht⟩ := exists_of_map_ok h
      cases ht
    · rename_i hnone
      cases h
      intro t ht
      rw [ht] at hnone
      exact hq _ (Bool.eq_false_iff.mpr hnone)
  cases slot with
  | counted make =>
    obtain ⟨f, -, rfl⟩ := exists_of_map_ok h
    simp [isOpen_counted hk] at hx
  | optional make =>
    obtain ⟨t, ht, rfl⟩ := exists_of_map_ok h
    rw [(isOpen_optional hk t).1, Option.isNone_iff_eq_none] at hx
    refine hskipped (fun k hk => ?_) (hx ▸ ht)
    cases k <;> first | rfl | cases hk
  | required make =>
    obtain ⟨t, -, rfl⟩ := exists_of_map_ok h
    simp [isOpen_required hk] at hx
  | sorting order =>
    cases h
    cases hx
  | matching counted =>
    obtain ⟨m, hm, rfl⟩ := exists_of_map_ok h
    rw [matching_eq] at hm
    obtain ⟨least, us, -, hus⟩ := exists_of_bind_ok hm
    obtain ⟨t, ht, rfl⟩ := exists_of_map_ok hus
    cases t with
    | none => exact hskipped (fun k hk => by cases k <;> first | rfl | cases hk) ht
    | some t => cases hx

theorem settled_isOpen {x : Addition} {ps qs : List Piece} (hk : slot? host k = some slot)
    (h : Settles (fun n _ => slot.fill (formula n)) ps qs.head? (.ok x)) (hx : x.isOpen = true) :
    ∀ p ∈ qs.head?, relation? p.1 = none := by
  rintro p hp
  have hpiece (p : Piece) : Token.piece ⟨p.1, 0, 0, p.2⟩ = p := rfl
  have hrun := h (ps.length + 1) (ps.length + 1) (ps.map fun p => ⟨p.1, 0, 0, p.2⟩)
    [⟨p.1, 0, 0, p.2⟩] (by simp [Function.comp_def, hpiece]) (by rw [hp]; rfl) (by simp) (by simp)
  exact relation?_of_isOpen hk hrun hx _ rfl

/-- A keyword starts no condition. -/
theorem isCondition_of_slot? {x : Addition} {ps : List Piece} (hk : slot? host k = some slot)
    (h : Grammar (.addition host x) ((k, text) :: ps)) : x.isCondition = false := by
  cases h with
  | success h =>
    cases h with
    | comparison hrelation h => simp [relation?_of_slot? hk] at hrelation
  | counted hk h => exact (isOpen_counted hk _).2
  | optional hk h => exact (isOpen_optional hk _).2
  | required hk h => exact (isOpen_required hk _).2
  | sorting hk => rfl
  | matching hk hcount hfilter => rfl

theorem decides_additions (hI : DecidedBelow xs.length) {isOpen : Bool}
    (hxs : isOpen = true → ∀ p ∈ xs.head?, relation? p.1 = none) :
    Decides (fun n m => additions host (formula n) m)
      (fun zs => Grammar (.additions host isOpen zs)) xs := by
  induction h : xs.length using Nat.strong_induction_on generalizing xs isOpen with
  | _ length ih =>
    by_cases hstop : ∀ p ∈ xs.head?, relation? p.1 = none ∧ slot? host p.1 = none
    · exact .done .nothing fun n m ts hts => additions_stop
        (forall_head?_kind (P := fun k => relation? k = none ∧ slot? host k = none) hstop hts) m
    · obtain ⟨⟨k, text⟩, ys, rfl, hk⟩ := exists_cons_of_not_forall hstop
      have hrest {x : Addition} {ps qs : List Piece} (hys : ys = ps ++ qs)
          (hopen : (isOpen && x.isCondition) = false)
          (hx : Grammar (.addition host x) ((k, text) :: ps))
          (hqs : x.isOpen = true → ∀ p ∈ qs.head?, relation? p.1 = none) :
          Decides (fun n m => (x :: ·) <$> additions host (formula n) m)
            (fun zs ws => Grammar (.additions host isOpen zs) ((k, text) :: (ps ++ ws))) qs := by
        have hlt : qs.length < length := h ▸ Nat.lt_succ_of_le (length_le_of_append hys)
        exact (ih qs.length hlt (hI.mono (h ▸ hlt.le)) hqs rfl).map fun zs ws hzs => .more hopen hx hzs
      cases hrelation : relation? k with
      | some relation =>
        have hopen : isOpen = false := by
          by_contra hopen
          rw [hxs (by simpa using hopen) (k, text) rfl] at hrelation
          cases hrelation
        have hcondition {t : Target Formula} {ps : List Piece}
            (ht : Grammar (.comparison t) ((k, text) :: ps)) :
            Grammar (.addition host (.modifier (.success t))) ((k, text) :: ps) := .success ht
        have hloop := (decides_compared text hI hrelation).bind
          (N := fun zs ws => Grammar (.additions host isOpen zs) ((k, text) :: ws))
          (f := fun t n m => (Addition.modifier (.success t) :: ·) <$> additions host (formula n) m)
          (fun t ps qs hys ht _ => hrest hys (by rw [hopen]; rfl) (hcondition ht) nofun)
          fun t ps ht => ⟨[], _, genuine_nil, .more (by rw [hopen]; rfl) (hcondition ht) .nothing⟩
        exact hloop.turn fun n m t ts ht _ => additions_comparison (ht ▸ hrelation)
      | none =>
        cases hslot : slot? host k with
        | some slot =>
          have hclosed {x : Addition} {ps : List Piece}
              (hx : Grammar (.addition host x) ((k, text) :: ps)) :
              (isOpen && x.isCondition) = false := by
            rw [isCondition_of_slot? hslot hx, Bool.and_false]
          have hloop := (decides_slot text hI hslot).bind
            (N := fun zs ws => Grammar (.additions host isOpen zs) ((k, text) :: ws))
            (f := fun x n m => (x :: ·) <$> additions host (formula n) m)
            (fun x ps qs hys hx hsettles => hrest hys (hclosed hx) hx (settled_isOpen hslot hsettles))
            fun x ps hx => ⟨[], _, genuine_nil, .more (hclosed hx) hx .nothing⟩
          exact hloop.turn fun n m t ts ht _ => additions_slot (ht ▸ hslot)
        | none => exact absurd ⟨hrelation, hslot⟩ hk

end Additions

end Parser

end DiceNotation

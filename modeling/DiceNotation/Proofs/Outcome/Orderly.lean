import DiceNotation.Proofs.Outcome.Assembled

/-! Outcomes in order: throws and members tell where they stand, a die throws one kind of faces, and
a throw is valid until it is dropped or thrown again. The modifiers of a group keep all of it, also
where they reach into the throws of a die. -/

namespace DiceNotation

namespace Throw

/-- A throw is valid unless it was dropped or thrown again, and never both happened to it. -/
def Accounted (t : Throw) : Prop :=
  t.valid = (!t.status.dropped && !t.rerolled) ∧
    ¬ (t.status.dropped = true ∧ t.rerolled = true)

/-- A throw shows one of the faces of its die. -/
def OnFace (t : Throw) : Prop :=
  match t.faces with
  | .fate => -1 ≤ t.face ∧ t.face ≤ 1
  | .sides count => 1 ≤ count → 1 ≤ t.face ∧ t.face ≤ count

theorem accounted_mark {c : Bool} {t : Throw} {s : Status} (h : t.status.Marks c s)
    (ht : t.Accounted) : Accounted { t with status := s } := by
  obtain ⟨hvalid, hboth⟩ := ht
  rcases h.standing with ⟨hv, hd⟩ | ⟨hv, hv', hd'⟩
  · simp only [Accounted, valid, hv, hd]
    exact ⟨hvalid, hboth⟩
  · simp only [valid, hv] at hvalid
    have hr : t.rerolled = false := by
      cases h : t.rerolled
      · rfl
      · simp [h] at hvalid
    simp [Accounted, valid, hv', hd', hr]

theorem accounted_discarded {t : Throw} (hv : t.valid = true) (ht : t.Accounted) :
    (Stage.discarded t).Accounted := by
  obtain ⟨hvalid, -⟩ := ht
  rw [hv] at hvalid
  have hd : t.status.dropped = false := by
    cases h : t.status.dropped
    · rfl
    · simp [h] at hvalid
  simp [Accounted, Stage.discarded, valid, hd]

end Throw

namespace Outcome

/-- The faces of a die, told from the outcome of its number of faces. -/
def facesOf : Option Outcome → Faces Int64
  | none => .fate
  | some o => .sides o.value.floor.toInt64

/-- An outcome whose parts tell where they stand. The throws of a die show its faces, and each is
valid until it is dropped or thrown again. -/
def Orderly (o : Outcome) : Prop :=
  match o.body with
  | .die _ faces throws =>
    Stage.InLine throws ∧ ∀ t ∈ throws, t.faces = facesOf faces ∧ t.Accounted
  | .diceSum head tail =>
    head.status.order = 0 ∧ tail.map (fun t => t.2.status.order) = List.range' 1 tail.length
  | .arithmetic head tail =>
    head.status.order = 0 ∧ tail.map (fun t => t.2.status.order) = List.range' 1 tail.length
  | .group members => members.map (fun o => o.status.order) = List.range members.length
  | _ => True

/-- An outcome all through which parts are in order and, where it is asked for, throws on faces. -/
def Sound (faced : Prop) (o : Outcome) : Prop :=
  ∀ p ∈ Nested.parts o, p.Orderly ∧ (faced → ∀ t ∈ p.throws, t.OnFace)

variable {faced : Prop}

theorem sound_iff (o : Outcome) : o.Sound faced ↔
    (o.Orderly ∧ (faced → ∀ t ∈ o.throws, t.OnFace)) ∧ ∀ c ∈ o.operands, c.Sound faced :=
  Nested.forall_parts_iff o

theorem sound_of_throws_eq_nil {o : Outcome} (hthrows : o.throws = []) (h : o.Orderly)
    (hoperands : ∀ c ∈ o.operands, c.Sound faced) : o.Sound faced := by
  rw [sound_iff, hthrows]
  exact ⟨⟨h, fun _ => List.forall_mem_nil _⟩, hoperands⟩

theorem sound_of_body {o o' : Outcome} (h : o.Sound faced) (hbody : o'.body = o.body) :
    o'.Sound faced := by
  obtain ⟨status, body, label⟩ := o
  obtain ⟨status', body', label'⟩ := o'
  obtain rfl : body' = body := hbody
  rw [sound_iff] at h ⊢
  cases body' <;> exact h

theorem sound_relabel {o : Outcome} (h : o.Sound faced) (label : Option String) :
    (o.relabel label).Sound faced :=
  sound_of_body h (by cases label <;> rfl)

theorem sound_of_marks {count : Outcome} {faces : Option Outcome} {ts us : List Throw}
    {s s' : Status} {label : Option String} (h : List.Forall₂ (Throw.Marks true) ts us)
    (hdie : Sound faced ⟨s, .die count faces ts, label⟩) :
    Sound faced ⟨s', .die count faces us, label⟩ := by
  rw [sound_iff] at hdie ⊢
  obtain ⟨⟨⟨hline, hthrows⟩, honface⟩, hoperands⟩ := hdie
  refine ⟨⟨⟨hline.of_forall₂ (fun _ _ h => h.1.order) h, ?_⟩, fun hf => ?_⟩, hoperands⟩
  · exact Throw.forall_of_marks (fun _ _ h ht => ⟨ht.1, Throw.accounted_mark h ht.2⟩) h hthrows
  · exact Throw.forall_of_marks (fun _ _ _ ht => ht) h (honface hf)

mutual
theorem sound_of_revised : {o o' : Outcome} → Revised o o' → o.Sound faced → o'.Sound faced
  | _, _, .die _ throws, h => sound_of_marks throws h
  | _, _, .status _ _, h => sound_of_body h rfl
  | _, _, .diceSum _ first others, h => by
    rw [sound_iff] at h ⊢
    obtain ⟨⟨⟨hfirst, hrest⟩, hthrows⟩, hoperands⟩ := h
    obtain ⟨hhead, htail⟩ := List.forall_mem_cons.mp hoperands
    refine ⟨⟨⟨first.order_eq.trans hfirst, ?_⟩, hthrows⟩, List.forall_mem_cons.mpr ?_⟩
    · rw [others.map_order, others.length_eq, hrest]
    · exact ⟨sound_of_revised first hhead, sound_of_revisedTail others htail⟩

theorem sound_of_revisedTail : {tail tail' : List (Sign × Outcome)} → RevisedTail tail tail' →
    (∀ o ∈ tail.map Prod.snd, o.Sound faced) → ∀ o ∈ tail'.map Prod.snd, o.Sound faced
  | _, _, .nil, h => h
  | _, _, .cons first others, h => by
    rw [List.map_cons, List.forall_mem_cons] at h ⊢
    exact ⟨sound_of_revised first h.1, sound_of_revisedTail others h.2⟩
end

theorem forall_of_revised {members members' : List Outcome}
    (h : List.Forall₂ Revised members members') (hsound : ∀ o ∈ members, o.Sound faced) :
    ∀ o ∈ members', o.Sound faced := by
  induction h with
  | nil => exact hsound
  | cons first _ ih =>
    rw [List.forall_mem_cons] at hsound ⊢
    exact ⟨sound_of_revised first hsound.1, ih hsound.2⟩

theorem sound_ofDie {count : Outcome} {faces : Option Outcome} {hasTargets : Bool}
    {matching : Option (Matching Number)} {sorting : Option Sorting} {ts : List Throw}
    (hcount : count.Sound faced) (hfaces : ∀ o ∈ faces, o.Sound faced) (hline : Stage.InLine ts)
    (hts : ∀ t ∈ ts, (t.faces = facesOf faces ∧ t.Accounted) ∧ (faced → t.OnFace)) :
    (ofDie count faces hasTargets matching sorting ts).Sound faced := by
  have hall : ∀ t ∈ (ofDie count faces hasTargets matching sorting ts).throws,
      (t.faces = facesOf faces ∧ t.Accounted) ∧ (faced → t.OnFace) :=
    forall_throws_ofDie (fun _ _ _ h => h) (fun _ h => h) (fun _ _ h => h) hts
  have hplaces : Stage.InLine (ofDie count faces hasTargets matching sorting ts).throws :=
    inLine_throws_ofDie hline
  rw [sound_iff]
  refine ⟨⟨⟨hplaces, fun t ht => (hall t ht).1⟩, fun hf t ht => (hall t ht).2 hf⟩,
    List.forall_mem_cons.mpr ⟨hcount, ?_⟩⟩
  simpa using hfaces

theorem sound_ofMembers {members : List Outcome} (h : ∀ o ∈ members, o.Sound faced)
    (horder : members.map (fun o => o.status.order) = List.range members.length) :
    (ofMembers members).Sound faced :=
  sound_of_throws_eq_nil rfl horder h

theorem sound_ofGroup {members : List Outcome} {hasTargets : Bool} {ss : List Status}
    (hss : List.Forall₂ (Status.Marks true) (entries members) ss)
    (h : ∀ o ∈ members, o.Sound faced)
    (horder : members.map (fun o => o.status.order) = List.range members.length) :
    (ofGroup members hasTargets ss).Sound faced := by
  obtain ⟨members', hrevised, hbody⟩ := body_ofGroup hasTargets hss
  refine sound_of_body (o := ofMembers members') (sound_ofMembers (forall_of_revised hrevised h) ?_)
    hbody
  rw [map_order_of_revised hrevised, horder, hrevised.length_eq]

end Outcome

end DiceNotation

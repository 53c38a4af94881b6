import DiceNotation.Proofs.Stage.Draws
import DiceNotation.Proofs.Stage.Endless
import DiceNotation.Proofs.Stage.Succession

/-! Dice that are thrown again. A valid die that meets the condition stays where it is, no longer
valid, in front of the dice that were drawn in its place: one of them, or as many as it takes until one
fails the condition. -/

namespace DiceNotation

namespace Stage

/-- The throw that is drawn at a place of the source, in place of one that is thrown again. -/
def replacement (samples : Samples) (faces : Faces Int64) (cursor : Nat) : Throw :=
  .fresh faces (faces.ofSample (samples cursor)) 0

/-- As many throws as are drawn in place of a throw: one if it is thrown again only once, and otherwise
as many as it takes, so that all but the last meet the condition. -/
structure Rethrows (samples : Samples) (condition : Target Number) (once : Bool) (cursor : Nat)
    (t : Throw) (m : Nat) : Prop where
  drawn : 0 < m
  meets : ∀ u ∈ (Throw.succession (replacement samples t.faces) cursor t m).dropLast,
    condition.accepts (.int u.face) = true
  ends : if once then m = 1 else
    ∀ u ∈ (Throw.succession (replacement samples t.faces) cursor t m).getLast?,
      condition.accepts (.int u.face) = false

/-- The block of throws that a throw becomes: itself, if it is not valid or fails the condition, and
otherwise itself and what was drawn in its place, all but the last of which are discarded. -/
inductive Rethrown (samples : Samples) (condition : Target Number) (once : Bool) (cursor : Nat)
    (t : Throw) : List Throw → Prop
  | left (h : (t.valid && condition.accepts (.int t.face)) = false) :
      Rethrown samples condition once cursor t [t]
  | thrown {m : Nat} (h : t.valid = true) (hm : Rethrows samples condition once cursor t m) :
      Rethrown samples condition once cursor t
        (butLast discarded (Throw.succession (replacement samples t.faces) cursor t m))

variable {samples : Samples} {condition : Target Number} {once : Bool}

section Block

variable {cursor m : Nat} {t : Throw}

theorem Rethrows.first (h : condition.accepts (.int t.face) = true)
    (hlast : once = true ∨
      condition.accepts (.int (replacement samples t.faces cursor).face) = false) :
    Rethrows samples condition once cursor t 1 where
  drawn := Nat.one_pos
  meets u hu := by
    obtain rfl : u = t := by simpa [Throw.succession] using hu
    exact h
  ends := by
    cases once with
    | true => rfl
    | false =>
      intro u hu
      rw [Throw.getLast?_succession_succ] at hu
      cases hu
      exact hlast.resolve_left Bool.false_ne_true

theorem Rethrows.more (h : condition.accepts (.int t.face) = true)
    (hm : Rethrows samples condition false (cursor + 1) (replacement samples t.faces cursor) m) :
    Rethrows samples condition false cursor t (m + 1) := by
  obtain ⟨hdrawn, hmeets, hends⟩ := hm
  refine ⟨Nat.succ_pos m, Throw.forall_dropLast_succession_succ _ _ _ h hmeets, ?_⟩
  rw [Throw.succession_succ]
  exact hends

/-- A throw and what is found in its place follow each other, all but the last of them discarded: a
replacement that meets the condition is itself thrown again. -/
theorem exists_rethrows {patience : Nat} {found : List Int64}
    (ht : condition.accepts (.int t.face) = true)
    (h : chase samples condition t.faces patience cursor = some found) :
    ∃ m, Rethrows samples condition false cursor t m ∧ withReplacements t found =
      butLast discarded (Throw.succession (replacement samples t.faces) cursor t m) := by
  induction patience generalizing cursor t found with
  | zero => cases h
  | succ patience ih =>
    rw [chase] at h
    by_cases hface : condition.accepts (.int (t.faces.ofSample (samples cursor)))
    · rw [if_pos hface] at h
      obtain ⟨rest, hrest, rfl⟩ := Option.map_eq_some_iff.mp h
      obtain ⟨m, hm, hblock⟩ := ih (t := replacement samples t.faces cursor) hface hrest
      refine ⟨m + 1, hm.more ht, ?_⟩
      rw [withReplacements, Throw.succession_succ]
      exact congrArg (discarded t :: ·) hblock
    · rw [if_neg hface] at h
      cases h
      exact ⟨1, .first ht (Or.inr (Bool.eq_false_iff.mpr hface)), rfl⟩

theorem rethrown_withReplacements {patience : Nat} {found : List Int64}
    (h : replacements samples condition patience once cursor t = some found) :
    Rethrown samples condition once cursor t (withReplacements t found) := by
  rw [replacements] at h
  by_cases ht : (t.valid && condition.accepts (.int t.face)) = true
  · obtain ⟨hvalid, hmeets⟩ := Bool.and_eq_true_iff.mp ht
    rw [if_pos ht] at h
    cases once with
    | true =>
      cases h
      exact .thrown hvalid (.first hmeets (Or.inl rfl))
    | false =>
      obtain ⟨m, hm, hblock⟩ := exists_rethrows hmeets h
      rw [hblock]
      exact .thrown hvalid hm
  · rw [if_neg ht] at h
    cases h
    exact .left (Bool.eq_false_iff.mpr ht)

/-- A block has a valid throw if the throw was valid that it stands for, and never more than one. -/
theorem countP_valid_of_rethrown {block : List Throw}
    (h : Rethrown samples condition once cursor t block) :
    block.countP Throw.valid = [t].countP Throw.valid := by
  cases h with
  | left => rfl
  | @thrown m hvalid hm =>
    obtain ⟨m, rfl⟩ := Nat.exists_eq_succ_of_ne_zero (Nat.ne_of_gt hm.drawn)
    rw [countP_butLast discarded fun _ => rfl, Throw.getLast?_succession_succ,
      List.countP_singleton, if_pos hvalid]
    rfl

/-- No valid throw of a block meets the condition, unless it was thrown again only once. -/
theorem fails_of_rethrown {block : List Throw}
    (h : Rethrown samples condition false cursor t block) :
    ∀ u ∈ block, u.valid = true → condition.accepts (.int u.face) = false := by
  cases h with
  | left ht =>
    intro u hu hvalid
    cases List.mem_singleton.mp hu
    simpa [hvalid] using ht
  | thrown _ hm =>
    intro u hu hvalid
    obtain ⟨v, -, rfl⟩ | hu := mem_butLast discarded hu
    · cases hvalid
    · exact hm.ends u hu

end Block

section Run

theorem exists_of_rerollFrom {patience cursor stop : Nat} {ts us : List Throw}
    (h : rerollFrom samples condition patience once cursor ts = some (us, stop)) :
    ∃ blocks, us = blocks.flatten ∧
      InTurn (Rethrown samples condition once) cursor ts blocks stop := by
  induction ts generalizing cursor us with
  | nil =>
    cases h
    exact ⟨[], rfl, .nil _⟩
  | cons t ts ih =>
    obtain ⟨found, hfound, h⟩ := Option.bind_eq_some_iff.mp h
    obtain ⟨⟨rest, stop'⟩, hrest, h⟩ := Option.bind_eq_some_iff.mp h
    cases h
    obtain ⟨blocks, rfl, hturns⟩ := ih hrest
    refine ⟨withReplacements t found :: blocks, rfl, .cons (rethrown_withReplacements hfound) ?_⟩
    rwa [List.length_tail, length_withReplacements]

/-- Throws with those that were drawn in place of some of them: blocks that stand in line, one for each
throw, of which as many throws are valid as before. -/
structure Rerolled (samples : Samples) (condition : Target Number) (once : Bool) (cursor : Nat)
    (ts us : List Throw) (stop : Nat) : Prop where
  blocks : ∃ blocks, us = Throw.lineUp blocks.flatten ∧
    InTurn (Rethrown samples condition once) cursor ts blocks stop ∧
    stop = cursor + (blocks.map fun block => block.tail.length).sum
  inLine : InLine us
  valid : us.countP Throw.valid = ts.countP Throw.valid
  settled : once = false → ∀ u ∈ us, u.valid = true → condition.accepts (.int u.face) = false

theorem rerolled_of_rerollFrom {patience cursor stop : Nat} {ts us : List Throw}
    (h : rerollFrom samples condition patience once cursor ts = some (us, stop)) :
    Rerolled samples condition once cursor ts (Throw.lineUp us) stop := by
  obtain ⟨blocks, rfl, hturns⟩ := exists_of_rerollFrom h
  refine ⟨⟨blocks, rfl, hturns, hturns.stop_eq⟩, inLine_lineUp _, ?_, ?_⟩
  · rw [countP_lineUp fun _ _ => rfl]
    exact hturns.countP_flatten fun _ _ _ => countP_valid_of_rethrown
  · rintro rfl
    exact forall_lineUp (fun _ _ h => h) (hturns.forall_flatten fun _ _ _ => fails_of_rethrown)

end Run

section Patience

variable {faces : Faces Int64} {patience patience' : Nat}

theorem chase_mono (hle : patience ≤ patience') {cursor : Nat} {found : List Int64}
    (h : chase samples condition faces patience cursor = some found) :
    chase samples condition faces patience' cursor = some found := by
  induction patience generalizing patience' cursor found with
  | zero => cases h
  | succ patience ih =>
    cases patience' with
    | zero => exact absurd hle (Nat.not_succ_le_zero patience)
    | succ patience' =>
      rw [chase] at h ⊢
      by_cases hface : condition.accepts (.int (faces.ofSample (samples cursor)))
      · rw [if_pos hface] at h ⊢
        obtain ⟨rest, hrest, rfl⟩ := Option.map_eq_some_iff.mp h
        rw [ih (Nat.le_of_succ_le_succ hle) hrest]
        rfl
      · rw [if_neg hface] at h ⊢
        exact h

theorem replacements_mono (hle : patience ≤ patience') {cursor : Nat} {t : Throw}
    {found : List Int64} (h : replacements samples condition patience once cursor t = some found) :
    replacements samples condition patience' once cursor t = some found := by
  rw [replacements] at h ⊢
  by_cases ht : (t.valid && condition.accepts (.int t.face)) = true
  · rw [if_pos ht] at h ⊢
    cases once with
    | true => exact h
    | false => exact chase_mono hle h
  · rw [if_neg ht] at h ⊢
    exact h

/-- What was thrown again with some patience comes out the same with more of it. -/
theorem rerollFrom_mono (hle : patience ≤ patience') {cursor : Nat} {ts : List Throw}
    {r : List Throw × Nat} (h : rerollFrom samples condition patience once cursor ts = some r) :
    rerollFrom samples condition patience' once cursor ts = some r := by
  induction ts generalizing cursor r with
  | nil => exact h
  | cons t ts ih =>
    obtain ⟨found, hfound, h⟩ := Option.bind_eq_some_iff.mp h
    obtain ⟨rest, hrest, h⟩ := Option.bind_eq_some_iff.mp h
    refine Option.bind_eq_some_iff.mpr ⟨found, replacements_mono hle hfound, ?_⟩
    exact Option.bind_eq_some_iff.mpr ⟨rest, ih hrest, h⟩

theorem exists_chase {cursor distance : Nat}
    (h : condition.accepts (.int (faces.ofSample (samples (cursor + distance)))) = false) :
    ∃ found, chase samples condition faces (distance + 1) cursor = some found := by
  induction distance generalizing cursor with
  | zero => exact ⟨_, if_neg (Bool.eq_false_iff.mp h)⟩
  | succ distance ih =>
    have hshift : cursor + (distance + 1) = cursor + 1 + distance := by omega
    rw [hshift] at h
    rw [chase]
    by_cases hface : condition.accepts (.int (faces.ofSample (samples cursor)))
    · obtain ⟨rest, hrest⟩ := ih h
      rw [if_pos hface, hrest]
      exact ⟨_, rfl⟩
    · exact ⟨_, if_neg hface⟩

theorem exists_replacements
    (hoften : ∀ n, ∃ k, n ≤ k ∧ condition.accepts (.int (faces.ofSample (samples k))) = false)
    {t : Throw} (ht : t.faces = faces) (once : Bool) (cursor : Nat) :
    ∃ patience found, replacements samples condition patience once cursor t = some found := by
  obtain ⟨k, hle, hface⟩ := hoften cursor
  obtain ⟨distance, rfl⟩ := Nat.exists_eq_add_of_le hle
  rw [← ht] at hface
  refine ⟨distance + 1, ?_⟩
  rw [replacements]
  split
  · split
    · exact ⟨_, rfl⟩
    · exact exists_chase hface
  · exact ⟨[], rfl⟩

theorem rerollFrom_cons {cursor stop : Nat} {t : Throw} {ts us : List Throw} {found : List Int64}
    (hfound : replacements samples condition patience once cursor t = some found)
    (hrest : rerollFrom samples condition patience once (cursor + found.length) ts =
      some (us, stop)) :
    rerollFrom samples condition patience once cursor (t :: ts) =
      some (withReplacements t found ++ us, stop) :=
  Option.bind_eq_some_iff.mpr ⟨found, hfound, Option.bind_eq_some_iff.mpr ⟨_, hrest, rfl⟩⟩

theorem exists_rerollFrom_once (samples : Samples) (condition : Target Number)
    (patience cursor : Nat) (ts : List Throw) :
    ∃ r, rerollFrom samples condition patience true cursor ts = some r := by
  induction ts generalizing cursor with
  | nil => exact ⟨_, rfl⟩
  | cons t ts ih =>
    have hfound : ∃ found, replacements samples condition patience true cursor t = some found := by
      rw [replacements]
      split <;> exact ⟨_, rfl⟩
    obtain ⟨found, hfound⟩ := hfound
    obtain ⟨rest, hrest⟩ := ih (cursor + found.length)
    exact ⟨_, rerollFrom_cons hfound hrest⟩

/-- Where faces that fail the condition keep coming, some patience is enough. -/
theorem exists_rerollFrom
    (hoften : ∀ n, ∃ k, n ≤ k ∧ condition.accepts (.int (faces.ofSample (samples k))) = false)
    {ts : List Throw} (hkind : ∀ t ∈ ts, t.faces = faces) (once : Bool) (cursor : Nat) :
    ∃ patience r, rerollFrom samples condition patience once cursor ts = some r := by
  induction ts generalizing cursor with
  | nil => exact ⟨0, _, rfl⟩
  | cons t ts ih =>
    obtain ⟨ht, hts⟩ := List.forall_mem_cons.mp hkind
    obtain ⟨patience, found, hfound⟩ := exists_replacements hoften ht once cursor
    obtain ⟨patience', rest, hrest⟩ := ih hts (cursor + found.length)
    exact ⟨max patience patience', _, rerollFrom_cons
      (replacements_mono (Nat.le_max_left patience patience') hfound)
      (rerollFrom_mono (Nat.le_max_right patience patience') hrest)⟩

end Patience

section Chains

variable {faces : Faces Int64}

/-- Dice of one kind that are thrown again, on a condition that not all of their faces meet: whenever
that ends, each die stands alone or in front of those that were drawn in its place. It ends if they are
thrown again only once. It also ends if faces that fail the condition keep coming: some patience is
enough, and more of it changes nothing. -/
theorem reroll_chains {target : Option (Target Number)} {ts : List Throw}
    (hkind : ∀ t ∈ ts, t.faces = faces) (hint : (rerollsOn faces target).value.isInt = true)
    (hfails : ∃ face, faces.Shows face ∧ (rerollsOn faces target).accepts (.int face) = false)
    (samples : Samples) (once : Bool) (name : String) (cursor : Nat) :
    (∀ patience us stop, reroll samples patience once target name cursor ts = (.ok us, stop) →
      Rerolled samples (rerollsOn faces target) once cursor ts us stop) ∧
    (once = true → ∀ patience, ∃ us stop,
      reroll samples patience once target name cursor ts = (.ok us, stop)) ∧
    ((∀ n, ∃ k, n ≤ k ∧
        (rerollsOn faces target).accepts (.int (faces.ofSample (samples k))) = false) →
      ∃ patience us stop, ∀ patience', patience ≤ patience' →
        reroll samples patience' once target name cursor ts = (.ok us, stop)) := by
  have hrun (patience : Nat) := reroll_of_not_isEndless samples name hkind
    (isEndless_of_fails hint hfails) patience once cursor
  refine ⟨fun patience us stop h => ?_, ?_, fun hoften => ?_⟩
  · rw [hrun] at h
    cases hfrom : rerollFrom samples (rerollsOn faces target) patience once cursor ts with
    | none =>
      rw [hfrom] at h
      cases h
    | some r =>
      rw [hfrom] at h
      cases h
      exact rerolled_of_rerollFrom hfrom
  · rintro rfl patience
    obtain ⟨r, hfrom⟩ := exists_rerollFrom_once samples (rerollsOn faces target) patience cursor ts
    exact ⟨_, _, by rw [hrun, hfrom]⟩
  · obtain ⟨patience, r, hfrom⟩ := exists_rerollFrom hoften hkind once cursor
    refine ⟨patience, Throw.lineUp r.1, r.2, fun patience' hle => ?_⟩
    rw [hrun, rerollFrom_mono hle hfrom]

/-- A one is thrown again until it is a six; a one that is not valid stays. -/
theorem reroll_chains_one : ∃ us : List Throw,
    reroll (fun i => if i < 2 then 0.1 else 0.9) 9 false none "reroll" 0
      [.fresh (.sides 6) 1 0, discarded (.fresh (.sides 6) 1 1)] = (.ok us, 3) ∧
    us.map (fun u => (u.face, u.valid, u.rerolled)) =
      [(1, false, true), (1, false, true), (1, false, true), (6, true, false), (1, false, true)] ∧
    Rerolled (fun i => if i < 2 then 0.1 else 0.9) ⟨.equal, .int 1⟩ false 0
      [.fresh (.sides 6) 1 0, discarded (.fresh (.sides 6) 1 1)] us 3 ∧
    ∃ patience vs stop, ∀ patience', patience ≤ patience' →
      reroll (fun i => if i < 2 then 0.1 else 0.9) patience' false none "reroll" 0
        [.fresh (.sides 6) 1 0, discarded (.fresh (.sides 6) 1 1)] = (.ok vs, stop) := by
  have hkind : ∀ t ∈ [Throw.fresh (.sides 6) 1 0, discarded (.fresh (.sides 6) 1 1)],
      t.faces = .sides 6 := by
    simp [Throw.fresh, discarded]
  have hfails : ∃ face, Faces.Shows (.sides 6) face ∧
      (rerollsOn (.sides 6) none).accepts (.int face) = false := ⟨6, by decide, by decide⟩
  have hsix : (rerollsOn (.sides 6) none).accepts (.int (Faces.ofSample 0.9 (.sides 6))) = false := by
    decide +kernel
  obtain ⟨hchains, -, hends⟩ := reroll_chains hkind rfl hfails
    (fun i => if i < 2 then 0.1 else 0.9) false "reroll" 0
  have hoften (n : Nat) : ∃ k, n ≤ k ∧ (rerollsOn (.sides 6) none).accepts
      (.int (Faces.ofSample (if k < 2 then 0.1 else 0.9) (.sides 6))) = false := by
    refine ⟨n + 2, Nat.le_add_right n 2, ?_⟩
    rwa [if_neg (Nat.not_lt.mpr (Nat.le_add_left 2 n))]
  obtain ⟨us, hr, hshown⟩ := exists_of_ends (x := reroll
    (fun i => if i < 2 then 0.1 else 0.9) 9 false none "reroll" 0 [.fresh (.sides 6) 1 0,
      discarded (.fresh (.sides 6) 1 1)]) (P := fun us =>
        us.map (fun u => (u.face, u.valid, u.rerolled)) == [(1, false, true), (1, false, true),
          (1, false, true), (6, true, false), (1, false, true)]) (m := 3) (by decide +kernel)
  exact ⟨us, hr, beq_iff_eq.mp hshown, hchains _ _ _ hr, hends hoften⟩

end Chains

end Stage

end DiceNotation

import DiceNotation.Chance.Play

/-! What a computation gives. A statement about results is carried through a computation one bind
at a time, so that no later proof opens the monad; the place of the source is part of it. -/

namespace DiceNotation

/-- A table with the default limits, without replacements. -/
def Table.ofSamples (samples : Samples) : Table :=
  ⟨samples, defaultLimit, defaultPatience, []⟩

theorem exists_of_toOption_any {ε α : Type} {x : Except ε α} {P : α → Bool}
    (h : x.toOption.any P = true) : ∃ a, x = .ok a ∧ P a = true := by
  cases x with
  | error e => cases h
  | ok a => exact ⟨a, rfl, h⟩

theorem exists_of_ends {ε α : Type} {x : Except ε α × Nat} {P : α → Bool} {m : Nat}
    (h : x.1.toOption.any P = true ∧ x.2 = m) : ∃ a, x = (.ok a, m) ∧ P a = true := by
  obtain ⟨a, ha, hP⟩ := exists_of_toOption_any h.1
  exact ⟨a, Prod.ext ha h.2, hP⟩

namespace Play

variable {α β : Type} {t : Table} {n : Nat}

/-- Every result of the computation has the property, at the place the source has then come to. -/
def Gives (p : Play α) (t : Table) (n : Nat) (Q : α → Nat → Prop) : Prop :=
  ∀ a m, p t n = (.ok a, m) → Q a m

theorem Gives.mono {p : Play α} {Q R : α → Nat → Prop} (h : p.Gives t n Q)
    (hQR : ∀ a m, Q a m → R a m) : p.Gives t n R :=
  fun a m hp => hQR a m (h a m hp)

theorem Gives.and {p : Play α} {Q R : α → Nat → Prop} (hQ : p.Gives t n Q) (hR : p.Gives t n R) :
    p.Gives t n fun a m => Q a m ∧ R a m :=
  fun a m hp => ⟨hQ a m hp, hR a m hp⟩

theorem gives_trivial (p : Play α) : p.Gives t n fun _ _ => True :=
  fun _ _ _ => trivial

@[simp] theorem gives_pure (a : α) (Q : α → Nat → Prop) :
    (Pure.pure a : Play α).Gives t n Q ↔ Q a n := by
  simp [Gives]

@[simp] theorem gives_fault (e : Fault) (Q : α → Nat → Prop) : (fault e : Play α).Gives t n Q := by
  simp [Gives]

@[simp] theorem gives_bind (p : Play α) (f : α → Play β) (Q : β → Nat → Prop) :
    (p >>= f).Gives t n Q ↔ p.Gives t n fun a m => (f a).Gives t m Q := by
  constructor
  · intro h a m hp b k hf
    exact h b k (by rw [bind_ok hp, hf])
  · intro h b k hb
    rw [bind_run] at hb
    split at hb
    · exact h _ _ ‹_› _ _ hb
    · simp at hb

@[simp] theorem gives_map (f : α → β) (p : Play α) (Q : β → Nat → Prop) :
    (f <$> p).Gives t n Q ↔ p.Gives t n fun a m => Q (f a) m := by
  rw [map_eq_pure_bind, gives_bind]
  simp only [gives_pure]

@[simp] theorem gives_table (Q : Table → Nat → Prop) : table.Gives t n Q ↔ Q t n := by
  simp [Gives, table]

theorem gives_step (f : Table → Nat → Except Fault α × Nat) (Q : α → Nat → Prop) :
    (step f).Gives t n Q ↔ ∀ a m, f t n = (.ok a, m) → Q a m :=
  Iff.rfl

theorem map_ok {p : Play α} {m : Nat} {a : α} (h : p t n = (.ok a, m)) (f : α → β) :
    (f <$> p) t n = (.ok (f a), m) := by
  rw [map_eq_pure_bind, bind_ok h, pure_run]

theorem map_error {p : Play α} {m : Nat} {e : Fault} (h : p t n = (.error e, m)) (f : α → β) :
    (f <$> p) t n = (.error e, m) := by
  rw [map_eq_pure_bind, bind_error h]

theorem gives_throwMany (faces : Faces Int64) (k : Nat) (Q : List Throw → Nat → Prop) :
    (throwMany faces k).Gives t n Q ↔ Q (Throw.drawMany t.samples n faces k) (n + k) := by
  simp [throwMany, gives_step]

theorem exists_of_toBool {p : Play α} {m : Nat} (h : (p t n).1.toBool = true ∧ (p t n).2 = m) :
    ∃ a, p t n = (.ok a, m) := by
  rcases hp : p t n with ⟨e | a, k⟩
  · simp [hp, Except.toBool] at h
  · rw [hp] at h
    exact ⟨a, by rw [← h.2]⟩

theorem exists_of_any {p : Play α} {P : α → Bool} (h : (p t n).1.toOption.any P = true) :
    ∃ a m, p t n = (.ok a, m) ∧ P a = true := by
  rcases hp : p t n with ⟨e | a, m⟩
  · simp [hp, Except.toOption] at h
  · rw [hp] at h
    exact ⟨a, m, rfl, h⟩

theorem forall_of_all {p : Play α} {P : α → Bool} (h : (p t n).1.toOption.all P = true) (a : α)
    (m : Nat) (ha : p t n = (.ok a, m)) : P a = true := by
  rw [ha] at h
  exact h

end Play

end DiceNotation

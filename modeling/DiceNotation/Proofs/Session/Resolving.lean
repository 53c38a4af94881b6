import DiceNotation.Session.Cache

/-!
What asking for names does to a cache. The resolver is asked for the names that the cache does not
have, in order, up to the first that it refuses; those it grants are added behind the old entries.
-/

namespace DiceNotation

namespace Cache

/-- The names that have to be asked for. -/
def missing (c : Cache) (names : List String) : List String :=
  names.filter fun name => (c.get? name).isNone

/-- A cache with more entries, behind those it has. -/
def extend (c : Cache) (granted : List (String × Transform)) : Cache :=
  ⟨c.entries ++ granted⟩

@[simp] theorem extend_nil (c : Cache) : c.extend [] = c := by
  simp [extend]

theorem extend_extend (c : Cache) (granted more : List (String × Transform)) :
    (c.extend granted).extend more = c.extend (granted ++ more) := by
  simp [extend]

theorem get?_extend (c : Cache) (granted : List (String × Transform)) (name : String) :
    (c.extend granted).get? name = (c.get? name).or (granted.lookup name) :=
  List.lookup_append

/-- What is known stays as it is. -/
theorem get?_extend_of_some {c : Cache} {name : String} {f : Transform} (h : c.get? name = some f)
    (granted : List (String × Transform)) : (c.extend granted).get? name = some f := by
  rw [get?_extend, h, Option.some_or]

theorem insertInto_of_lookup {name : String} {entries : List (String × Transform)}
    (h : entries.lookup name = none) (f : Transform) :
    insertInto name f entries = entries ++ [(name, f)] := by
  induction entries with
  | nil => rfl
  | cons e rest ih =>
    obtain ⟨n, g⟩ := e
    rw [List.lookup_cons] at h
    split at h
    · cases h
    · rename_i hne
      have hname : n ≠ name := fun hn => by simp [hn] at hne
      rw [insertInto, if_neg hname, ih h, List.cons_append]

theorem insert_of_get? {c : Cache} {name : String} (h : c.get? name = none) (f : Transform) :
    c.insert name f = c.extend [(name, f)] :=
  congrArg Cache.mk (insertInto_of_lookup h f)

theorem missing_cons_of_some {c : Cache} {name : String} {f : Transform} (h : c.get? name = some f)
    (names : List String) : c.missing (name :: names) = c.missing names := by
  simp [missing, h]

theorem missing_cons_of_none {c : Cache} {name : String} (h : c.get? name = none)
    (names : List String) : c.missing (name :: names) = name :: c.missing names := by
  simp [missing, h]

/-- A name that is not asked for again can be added to the cache. -/
theorem missing_extend {c : Cache} {name : String} {f : Transform} {names : List String}
    (h : name ∉ names) : (c.extend [(name, f)]).missing names = c.missing names := by
  refine List.filter_congr fun other hother => ?_
  have hne : other ≠ name := fun he => h (he ▸ hother)
  simp [get?_extend, List.lookup_cons, beq_false_of_ne hne]

/-- All names have transforms, those that the cache has for them. -/
def Provides (c : Cache) (names : List String) (transforms : List (String × Transform)) : Prop :=
  ∀ name ∈ names, ∃ f, c.get? name = some f ∧ transforms.lookup name = some f

theorem Provides.cons {c : Cache} {names : List String} {transforms : List (String × Transform)}
    {name : String} {f : Transform} (h : c.Provides names transforms) (hname : c.get? name = some f) :
    c.Provides (name :: names) ((name, f) :: transforms) := by
  refine List.forall_mem_cons.mpr ⟨⟨f, hname, List.lookup_cons_self⟩, fun other hother => ?_⟩
  by_cases heq : other = name
  · exact ⟨f, heq ▸ hname, by rw [heq, List.lookup_cons_self]⟩
  · rw [List.lookup_cons, beq_false_of_ne heq]
    exact h other hother

/-- What may come of asking for names: all of them are known or granted, or the first of the missing
names that is not granted is refused. -/
inductive Answers (resolver : Resolver) (c : Cache) (names : List String) : Resolved → Prop
  | all (granted transforms : List (String × Transform))
      (hmissing : c.missing names = granted.map Prod.fst)
      (hgranted : ∀ g ∈ granted, resolver g.1 = .ok g.2)
      (htransforms : (c.extend granted).Provides names transforms) :
      Answers resolver c names ⟨c.extend granted, granted.map Prod.fst, .ok transforms⟩
  | refused (granted : List (String × Transform)) (name reason : String) (later : List String)
      (hmissing : c.missing names = granted.map Prod.fst ++ name :: later)
      (hgranted : ∀ g ∈ granted, resolver g.1 = .ok g.2)
      (hname : resolver name = .error reason) :
      Answers resolver c names
        ⟨c.extend granted, granted.map Prod.fst ++ [name], .error (name, reason)⟩

section Steps

variable {resolver : Resolver} {c : Cache} {name : String} {names : List String} {r : Resolved}
  {f : Transform}

/-- A known name in front changes nothing but the transforms. -/
theorem Answers.known (h : Answers resolver c names r) (hname : c.get? name = some f) :
    Answers resolver c (name :: names) { r with transforms := r.transforms.map ((name, f) :: ·) } := by
  cases h with
  | all granted transforms hmissing hgranted htransforms =>
    refine .all granted ((name, f) :: transforms) ?_ hgranted ?_
    · rw [missing_cons_of_some hname, hmissing]
    · exact htransforms.cons (get?_extend_of_some hname granted)
  | refused granted other reason later hmissing hgranted hrefused =>
    refine .refused granted other reason later ?_ hgranted hrefused
    rw [missing_cons_of_some hname, hmissing]

/-- A name in front that is granted is the first of those added. -/
theorem Answers.granted (h : Answers resolver (c.insert name f) names r)
    (hname : c.get? name = none) (hf : resolver name = .ok f) (hfresh : name ∉ names) :
    Answers resolver c (name :: names)
      { r with asked := name :: r.asked, transforms := r.transforms.map ((name, f) :: ·) } := by
  rw [insert_of_get? hname f] at h
  have hmissing : c.missing (name :: names) = name :: (c.extend [(name, f)]).missing names := by
    rw [missing_cons_of_none hname, missing_extend hfresh]
  cases h with
  | all granted transforms hrest hgranted htransforms =>
    have hself : (c.extend ((name, f) :: granted)).get? name = some f := by
      rw [get?_extend, hname, Option.none_or, List.lookup_cons_self]
    rw [extend_extend] at htransforms ⊢
    refine .all ((name, f) :: granted) ((name, f) :: transforms) ?_ ?_ (htransforms.cons hself)
    · rw [hmissing, hrest, List.map_cons]
    · exact List.forall_mem_cons.mpr ⟨hf, hgranted⟩
  | refused granted other reason later hrest hgranted hrefused =>
    rw [extend_extend]
    refine .refused ((name, f) :: granted) other reason later ?_ ?_ hrefused
    · rw [hmissing, hrest, List.map_cons, List.cons_append]
    · exact List.forall_mem_cons.mpr ⟨hf, hgranted⟩

end Steps

/-- Names that do not repeat are asked for as far as they are granted. -/
theorem answers_resolve (resolver : Resolver) (c : Cache) {names : List String}
    (hnames : names.Nodup) : Answers resolver c names (resolve resolver c names) := by
  induction names generalizing c with
  | nil =>
    have h : Answers resolver c [] ⟨c.extend [], [], .ok []⟩ :=
      .all [] [] rfl nofun (List.forall_mem_nil _)
    rwa [extend_nil] at h
  | cons name names ih =>
    obtain ⟨hfresh, hrest⟩ := List.nodup_cons.mp hnames
    rw [resolve]
    cases hname : c.get? name with
    | some f => exact (ih c hrest).known hname
    | none =>
      cases hresolver : resolver name with
      | ok f => exact (ih (c.insert name f) hrest).granted hname hresolver hfresh
      | error reason =>
        have h : Answers resolver c (name :: names) ⟨c.extend [], [name], .error (name, reason)⟩ :=
          .refused [] name reason (c.missing names) (missing_cons_of_none hname names) nofun hresolver
        rwa [extend_nil] at h

end Cache

end DiceNotation

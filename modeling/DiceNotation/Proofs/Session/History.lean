import DiceNotation.Session.Basic
import DiceNotation.Proofs.Session.Rolling

/-!
Sessions step by step. Rollers come and go, change caches, have transforms inserted and roll; a cache
that stays in use only grows, and no name is resolved for it twice.
-/

namespace DiceNotation

/-- The names that the resolver granted: all that it was asked for, less the one it refused. -/
def Report.granted (report : Report) : List String :=
  match report.outcome with
  | .error (.unresolved _ _) => report.asked.dropLast
  | _ => report.asked

namespace Cache

/-- One cache comes from another. The names resolved were not in it, each is resolved once and then
kept; the names that were in it are kept, with their transforms unless others are inserted. -/
structure Grows (c : Cache) (resolved : List String) (inserted : String → Prop) (c' : Cache) :
    Prop where
  once : resolved.Nodup
  fresh : ∀ name ∈ resolved, c.get? name = none
  gained : ∀ name ∈ resolved, (c'.get? name).isSome
  kept : ∀ name, (c.get? name).isSome → (c'.get? name).isSome
  unchanged : ∀ name f, c.get? name = some f → ¬ inserted name → c'.get? name = some f

section Growth

variable {c c' c'' : Cache} {names more : List String} {inserted inserted' : String → Prop}

theorem Grows.refl (c : Cache) (inserted : String → Prop) : c.Grows [] inserted c :=
  ⟨.nil, nofun, nofun, fun _ h => h, fun _ _ h _ => h⟩

theorem Grows.mono (h : c.Grows names inserted c') (hsub : ∀ name, inserted name → inserted' name) :
    c.Grows names inserted' c' :=
  ⟨h.once, h.fresh, h.gained, h.kept, fun name f hf hname =>
    h.unchanged name f hf fun hinserted => hname (hsub name hinserted)⟩

theorem Grows.trans (h : c.Grows names inserted c') (h' : c'.Grows more inserted c'') :
    c.Grows (names ++ more) inserted c'' where
  once := by
    refine List.nodup_append.mpr ⟨h.once, h'.once, ?_⟩
    rintro name hname _ hmore rfl
    have hgained := h.gained name hname
    rw [h'.fresh name hmore] at hgained
    cases hgained
  fresh := by
    refine List.forall_mem_append.mpr ⟨h.fresh, fun name hname => ?_⟩
    by_contra hknown
    have hkept := h.kept name (Option.isSome_iff_ne_none.mpr hknown)
    rw [h'.fresh name hname] at hkept
    cases hkept
  gained := List.forall_mem_append.mpr ⟨fun name hname => h'.kept name (h.gained name hname), h'.gained⟩
  kept name hname := h'.kept name (h.kept name hname)
  unchanged name f hf hname := h'.unchanged name f (h.unchanged name f hf hname) hname

theorem grows_insert (c : Cache) (name : String) (f : Transform) :
    c.Grows [] (· = name) (c.insert name f) where
  once := .nil
  fresh := nofun
  gained := nofun
  kept other h := by
    rw [get?_insert]
    split
    · rfl
    · exact h
  unchanged other g hg hne := by
    rw [get?_insert, if_neg hne]
    exact hg

/-- Granted names that the cache was missing. -/
theorem grows_extend {granted : List (String × Transform)} {later : List String}
    (hnames : names.Nodup) (hmissing : c.missing names = granted.map Prod.fst ++ later) :
    c.Grows (granted.map Prod.fst) inserted (c.extend granted) where
  once := by
    have hnodup : (c.missing names).Nodup := hnames.filter _
    rw [hmissing] at hnodup
    exact hnodup.of_append_left
  fresh name hname := by
    have hmem : name ∈ c.missing names := hmissing ▸ List.mem_append_left later hname
    exact Option.isNone_iff_eq_none.mp (List.mem_filter.mp hmem).2
  gained name hname := by
    obtain ⟨g, hg, rfl⟩ := List.mem_map.mp hname
    rw [get?_extend, Option.isSome_or, List.lookup_isSome_iff.mpr ⟨g, hg, by simp⟩, Bool.or_true]
  kept name hname := by
    rw [get?_extend, Option.isSome_or, hname, Bool.true_or]
  unchanged name f hf _ := get?_extend_of_some hf granted

end Growth

end Cache

namespace Roller

variable {r r' : Roller} {c c' : Cache} {report : Report} {inserted : String → Prop}

theorem Goes.grows {f : Formula} (h : r.Goes c f (report, r', c')) :
    c.Grows report.granted inserted c' := by
  cases h with
  | refused names granted name reason later hnames hmissing hgranted hname =>
    have hdropLast : (granted.map Prod.fst ++ [name]).dropLast = granted.map Prod.fst :=
      List.dropLast_concat
    rw [Report.granted, hdropLast]
    exact Cache.grows_extend hnames.nodup hmissing
  | rolled names granted outcome cursor hnames hmissing hgranted hknown hroll _ _ =>
    have hsame : Report.granted ⟨outcome.mapError .fault, granted.map Prod.fst, cursor - r.cursor⟩ =
        granted.map Prod.fst := by
      cases outcome <;> rfl
    rw [hsame]
    exact Cache.grows_extend hnames.nodup (hmissing.trans (List.append_nil _).symm)

theorem goes_roll {request : Request} {f : Formula} (hread : request.read = .ok f) (r : Roller)
    (c : Cache) : r.Goes c f (r.roll c request) := by
  rw [roll, hread]
  exact r.goes_rollFormula c f

/-- A request that is not read asks for nothing. -/
theorem grows_roll (r : Roller) (c : Cache) (request : Request) (inserted : String → Prop) :
    c.Grows (r.roll c request).1.granted inserted (r.roll c request).2.2 := by
  cases hread : request.read with
  | ok f => exact (goes_roll hread r c).grows
  | error e =>
    rw [roll, hread]
    have hnone : Report.granted ⟨.error e, [], 0⟩ = [] := by cases e <;> rfl
    rw [hnone]
    exact .refl c inserted

end Roller

namespace Session

/-- Lets a roller go on with another source, limit or resolver. -/
def adjust (s : Session) (name : String) (change : Roller → Roller) : Session :=
  match s.rollers name with
  | some (r, key) => s.setRoller name (change r) key
  | none => s

theorem setLimit_eq (s : Session) (name : String) (limit : Nat) :
    s.setLimit name limit = s.adjust name fun r => { r with limit := limit } :=
  rfl

/-- Makes a roller use the cache of another or one that rollers share. -/
def useCache (s : Session) (name : String) (key : CacheKey) : Session :=
  match s.rollers name with
  | some (r, _) => s.setRoller name r key
  | none => s

theorem share_eq (s : Session) (name cache : String) :
    s.share name cache = s.useCache name (.shared cache) :=
  rfl

/-- Puts a transform into a cache. -/
def insertAt (s : Session) (key : CacheKey) (name : String) (f : Transform) : Session :=
  s.setCache key ((s.caches key).insert name f)

theorem insert_eq (s : Session) (cache name : String) (f : Transform) :
    s.insert cache name f = s.insertAt (.shared cache) name f :=
  rfl

inductive Action where
  | addRoller (name : String) (r : Roller)
  | adjust (name : String) (change : Roller → Roller)
  | useCache (name : String) (key : CacheKey)
  | insert (key : CacheKey) (name : String) (f : Transform)
  | roll (name : String) (request : Request)

/-- A new roller starts with an empty cache in the place of the one under the key. -/
def Action.Renews (key : CacheKey) : Action → Prop
  | .addRoller name _ => key = .own name
  | _ => False

/-- The action puts a transform for the name into the cache under the key. -/
def Action.Inserts (key : CacheKey) (name : String) : Action → Prop
  | .insert k n _ => k = key ∧ n = name
  | _ => False

def act (s : Session) : Action → Session
  | .addRoller name r => s.addRoller name r
  | .adjust name change => s.adjust name change
  | .useCache name key => s.useCache name key
  | .insert key name f => s.insertAt key name f
  | .roll name request => (s.roll name request).2

def run (s : Session) (actions : List Action) : Session :=
  actions.foldl act s

/-- The names that an action resolves for the cache under a key. -/
def resolvedBy (s : Session) (key : CacheKey) : Action → List String
  | .roll name request =>
    match s.rollers name with
    | some (r, k) => if k = key then (r.roll (s.caches k) request).1.granted else []
    | none => []
  | _ => []

/-- The names that a run resolves for the cache under a key, in order. -/
def resolved (key : CacheKey) : Session → List Action → List String
  | _, [] => []
  | s, a :: actions => s.resolvedBy key a ++ resolved key (s.act a) actions

theorem roll_eq (s : Session) {name : String} {r : Roller} {key : CacheKey}
    (h : s.rollers name = some (r, key)) (request : Request) :
    let result := r.roll (s.caches key) request
    s.roll name request =
      (some result.1, (s.setRoller name result.2.1 key).setCache key result.2.2) := by
  simp only [roll, h]

/-- What one action does to the cache under a key. -/
theorem grows_act (s : Session) {key : CacheKey} {a : Action} (ha : ¬ a.Renews key) :
    (s.caches key).Grows (s.resolvedBy key a) (a.Inserts key) ((s.act a).caches key) := by
  cases a with
  | addRoller name r =>
    have hkey : key ≠ .own name := ha
    rw [act, addRoller, setCache_caches, if_neg hkey]
    exact .refl _ _
  | adjust name change =>
    rw [act, adjust]
    split <;> exact .refl _ _
  | useCache name other =>
    rw [act, useCache]
    split <;> exact .refl _ _
  | insert other name f =>
    rw [act, insertAt, setCache_caches]
    split
    · rename_i hkey
      subst hkey
      exact ((s.caches key).grows_insert name f).mono fun _ hname => ⟨rfl, hname.symm⟩
    · exact .refl _ _
  | roll name request =>
    rw [act, roll, resolvedBy]
    cases hroller : s.rollers name with
    | none => exact .refl _ _
    | some roller =>
      obtain ⟨r, other⟩ := roller
      simp only [setCache_caches]
      split
      · rename_i hkey
        subst hkey
        rw [if_pos rfl]
        exact r.grows_roll _ request _
      · rename_i hkey
        rw [if_neg fun h => hkey h.symm]
        exact .refl _ _

/-- What a run does to a cache that is not renewed in it, by induction on its actions. -/
theorem grows_run (s : Session) {key : CacheKey} {actions : List Action}
    (h : ∀ a ∈ actions, ¬ a.Renews key) : (s.caches key).Grows (s.resolved key actions)
      (fun name => ∃ a ∈ actions, a.Inserts key name) ((s.run actions).caches key) := by
  induction actions generalizing s with
  | nil => exact .refl _ _
  | cons a actions ih =>
    obtain ⟨ha, hactions⟩ := List.forall_mem_cons.mp h
    have hact := (s.grows_act ha).mono fun name hname =>
      (⟨a, List.mem_cons_self, hname⟩ : ∃ b ∈ a :: actions, b.Inserts key name)
    have hrun := (ih (s.act a) hactions).mono fun name ⟨b, hb, hname⟩ =>
      (⟨b, List.mem_cons_of_mem a hb, hname⟩ : ∃ b ∈ a :: actions, b.Inserts key name)
    exact hact.trans hrun

/-- In every session a roll asks for the names that its cache lacks, in order and up to the first
that is refused, and goes as they are answered; each replacement that is rolled is worth what the
transform that the cache then holds for its name makes of its argument. As long as a cache is in use,
a name is resolved for it at most once, and what a name means in it changes only where a transform is
inserted. -/
theorem resolution_once (s : Session) :
    (∀ (name : String) (r : Roller) (key : CacheKey) (request : Request) (f : Formula),
      s.rollers name = some (r, key) → request.read = .ok f →
        ∃ report r' c', r.Goes (s.caches key) f (report, r', c') ∧
          s.roll name request = (some report, (s.setRoller name r' key).setCache key c')) ∧
    ∀ (key : CacheKey) (actions : List Action), (∀ a ∈ actions, ¬ a.Renews key) →
      (s.caches key).Grows (s.resolved key actions) (fun name => ∃ a ∈ actions, a.Inserts key name)
        ((s.run actions).caches key) := by
  refine ⟨fun name r key request f hroller hread => ?_, fun key actions => s.grows_run⟩
  have hgoes := Roller.goes_roll hread r (s.caches key)
  rw [s.roll_eq hroller request]
  generalize r.roll (s.caches key) request = result at hgoes
  exact ⟨result.1, result.2.1, result.2.2, hgoes, rfl⟩

/-- A roller rolls `@half(4)d6kh@half(2)` twice, and its resolver is asked once. Of two dice one is
kept: both names are worth half of what they are given. -/
theorem resolution_once_half :
    let half : Transform := fun x => x.div (.int 2)
    let r := Roller.new (fun _ => 0) (fun name => if name = "half" then .ok half else .error "none") 9
    let s := start.addRoller "a" r
    let ofHalf (i : Int64) := Formula.bare (.replacement "half" (.int i))
    let f := Formula.die ⟨ofHalf 4, .sides (.int 6), [.keep .high (ofHalf 2)], [], none, none⟩
    let actions := [Action.roll "a" (.formula f), .roll "a" (.formula f)]
    s.rollers "a" = some (r, .own "a") ∧ (∀ a ∈ actions, ¬ a.Renews (.own "a")) ∧
      s.resolved (.own "a") actions = ["half"] ∧
      ((s.roll "a" (.formula f)).1.bind fun report => report.outcome.toOption.map fun o =>
        (o.throws.map Throw.valid, o.value.toInt64)) = some ([false, true], 1) ∧
      (∃ report r' c', r.Goes (s.caches (.own "a")) f (report, r', c') ∧
        s.roll "a" (.formula f) =
          (some report, (s.setRoller "a" r' (.own "a")).setCache (.own "a") c')) ∧
      (s.caches (.own "a")).Grows (s.resolved (.own "a") actions)
        (fun name => ∃ a ∈ actions, a.Inserts (.own "a") name)
        ((s.run actions).caches (.own "a")) := by
  intro half r s ofHalf f actions
  have hactions : ∀ a ∈ actions, ¬ a.Renews (.own "a") := by simp [actions, Action.Renews]
  refine ⟨rfl, hactions, by decide +kernel, by decide +kernel, ?_, ?_⟩
  · exact (resolution_once s).1 "a" r (.own "a") (.formula f) f rfl rfl
  · exact (resolution_once s).2 (.own "a") actions hactions

end Session

end DiceNotation

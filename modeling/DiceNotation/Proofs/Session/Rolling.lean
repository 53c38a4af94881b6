import DiceNotation.Session.Roller
import DiceNotation.Proofs.Roll.Lookups
import DiceNotation.Proofs.Roll.Replacements
import DiceNotation.Proofs.Session.Resolving

/-!
What a roller does with a formula. The names that the formula mentions are resolved first, each once
and in the order in which they are met; nothing is drawn unless all of them have transforms.
-/

namespace DiceNotation

namespace Roller

/-- How a formula goes: a name that the cache lacks is refused, and nothing is drawn, or all names
have transforms, and the formula rolls with those of the cache. Each of its replacements is then worth
what the cache makes of the value of the argument, and is so in the outcome. -/
inductive Goes (r : Roller) (c : Cache) (f : Formula) : Report × Roller × Cache → Prop
  | refused (names : List String) (granted : List (String × Transform)) (name reason : String)
      (later : List String)
      (hnames : FirstMet names f.mentions)
      (hmissing : c.missing names = granted.map Prod.fst ++ name :: later)
      (hgranted : ∀ g ∈ granted, r.resolver g.1 = .ok g.2)
      (hname : r.resolver name = .error reason) :
      Goes r c f
        (⟨.error (.unresolved name reason), granted.map Prod.fst ++ [name], 0⟩, r, c.extend granted)
  | rolled (names : List String) (granted : List (String × Transform))
      (outcome : Except Fault Outcome) (cursor : Nat)
      (hnames : FirstMet names f.mentions)
      (hmissing : c.missing names = granted.map Prod.fst)
      (hgranted : ∀ g ∈ granted, r.resolver g.1 = .ok g.2)
      (hknown : ∀ name ∈ f.mentions, ((c.extend granted).get? name).isSome)
      (hroll : f.roll (r.table (c.extend granted).entries) r.cursor = (outcome, cursor))
      (happlies : ∀ q ∈ Nested.parts f,
        q.Applies (c.extend granted).get? (r.table (c.extend granted).entries))
      (happlied : ∀ o, outcome = .ok o → ∀ p ∈ Nested.parts o, p.Applied (c.extend granted).get?) :
      Goes r c f
        (⟨outcome.mapError .fault, granted.map Prod.fst, cursor - r.cursor⟩,
          { r with cursor := cursor }, c.extend granted)

/-- A roll with the transforms of a cache, or with those that the names in the formula have in it. -/
theorem roll_table_of_provides {c : Cache} {f : Formula} {transforms : List (String × Transform)}
    (h : c.Provides f.replacements transforms) (r : Roller) (cursor : Nat) :
    f.roll (r.table transforms) cursor = f.roll (r.table c.entries) cursor := by
  refine (heeds_roll f fun _ h => h).congr _ _ _ ⟨rfl, rfl, rfl, fun name hname => ?_⟩
  obtain ⟨g, hcache, htransforms⟩ := h name ((f.firstMet_replacements.mem_iff name).mpr hname)
  exact htransforms.trans hcache.symm

theorem goes_rollFormula (r : Roller) (c : Cache) (f : Formula) :
    r.Goes c f (r.rollFormula c f) := by
  have hnames := f.firstMet_replacements
  have hanswers := Cache.answers_resolve r.resolver c hnames.nodup
  rw [rollFormula]
  generalize Cache.resolve r.resolver c f.replacements = resolved at hanswers
  cases hanswers with
  | refused granted name reason later hmissing hgranted hname =>
    exact .refused f.replacements granted name reason later hnames hmissing hgranted hname
  | all granted transforms hmissing hgranted htransforms =>
    have hknown : ∀ name ∈ f.mentions, ((c.extend granted).get? name).isSome := by
      intro name hname
      obtain ⟨g, hg, -⟩ := htransforms name ((hnames.mem_iff name).mpr hname)
      rw [hg, Option.isSome_some]
    have hroll := (roll_table_of_provides htransforms r r.cursor).symm
    refine .rolled f.replacements granted _ _ hnames hmissing hgranted hknown hroll
      (applies_of_mentions (r.table (c.extend granted).entries) hknown) fun o ho => ?_
    exact applied_of_roll (hroll.trans (Prod.ext ho rfl))

/-- A roll that all its names have transforms for does not miss one. -/
theorem Goes.outcome_ne_unresolved {r : Roller} {c : Cache} {f : Formula}
    {result : Report × Roller × Cache} (h : r.Goes c f result) (name : String) :
    result.1.outcome ≠ .error (.fault (.unresolved name)) := by
  cases h with
  | refused => exact nofun
  | rolled names granted outcome cursor hnames hmissing hgranted hknown hroll _ _ =>
    intro houtcome
    obtain rfl : outcome = .error (.unresolved name) := by
      cases outcome with
      | ok o => cases houtcome
      | error e => exact congrArg Except.error (RequestError.fault.inj (Except.error.inj houtcome))
    obtain ⟨hmentioned, hmissing⟩ := (heeds_roll f fun _ h => h).unresolved _ _ _ _ hroll
    have hnone : (c.extend granted).get? name = none := hmissing
    have hsome := hknown name hmentioned
    rw [hnone] at hsome
    cases hsome

end Roller

/-- The names to resolve are those of the replacements in a formula, each once, as they are met
first; with them resolved no roll misses a transform. -/
theorem replacements_resolved (f : Formula) : FirstMet f.replacements f.mentions ∧
    ∀ (r : Roller) (cache : Cache) (name : String),
      (r.rollFormula cache f).1.outcome ≠ .error (.fault (.unresolved name)) :=
  ⟨f.firstMet_replacements, fun r cache => (r.goes_rollFormula cache f).outcome_ne_unresolved⟩

end DiceNotation

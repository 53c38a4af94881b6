import DiceNotation.Proofs.Number.Range
import DiceNotation.Proofs.Stage.Idle
import Mathlib.Data.Prod.Lex

/-! Which entries are kept and which are dropped. A stable sort by the numbers alone ranks entries
that stand in order by number and place, so what a stage drops is told by how many valid entries rank
ahead; entries that were dropped before are not counted, wherever the sorting puts them. -/

namespace DiceNotation

section Sorting

variable {α : Type}

theorem insertBack_congr {before before' : α → α → Bool} {x : α} {xs : List α}
    (h : ∀ y ∈ xs, before x y = before' x y) : insertBack before x xs = insertBack before' x xs := by
  induction xs with
  | nil => rfl
  | cons y ys ih =>
    obtain ⟨hy, hys⟩ := List.forall_mem_cons.mp h
    rw [insertBack, insertBack, hy, ih hys]

/-- A sort compares no element but with those that stand before it. -/
theorem stableSort_congr {before before' : α → α → Bool} {R : α → α → Prop}
    (h : ∀ a b, R a b → before b a = before' b a) {xs : List α} (hxs : xs.Pairwise R) :
    stableSort before xs = stableSort before' xs := by
  have all (sorted : List α) (hsorted : ∀ x ∈ xs, ∀ y ∈ sorted, R y x) :
      xs.foldl (fun sorted x => insertBack before x sorted) sorted =
        xs.foldl (fun sorted x => insertBack before' x sorted) sorted := by
    induction xs generalizing sorted with
    | nil => rfl
    | cons x xs ih =>
      obtain ⟨hx, hrest⟩ := List.pairwise_cons.mp hxs
      obtain ⟨hhead, htail⟩ := List.forall_mem_cons.mp hsorted
      rw [List.foldl_cons, List.foldl_cons, insertBack_congr fun y hy => h y x (hhead y hy)]
      refine ih hrest _ fun z hz y hy => ?_
      rcases List.mem_cons.mp ((insertBack_perm before' x sorted).mem_iff.mp hy) with rfl | hy
      · exact hx z hz
      · exact htail z hz y hy
  rw [stableSort, stableSort, all [] (by simp)]

/-- Elements that the sort never puts before each other keep their order among themselves. -/
theorem filter_stableSort {before : α → α → Bool} {p : α → Bool}
    (h : ∀ a b, p a = true → p b = true → before a b = false) (xs : List α) :
    (stableSort before xs).filter p = xs.filter p := by
  have one (x : α) (sorted : List α) :
      (insertBack before x sorted).filter p = [x].filter p ++ sorted.filter p := by
    induction sorted with
    | nil => simp [insertBack]
    | cons y ys ih =>
      cases hx : p x with
      | true =>
        cases hy : p y with
        | true => simp [insertBack, h x y hx hy, hx, hy]
        | false =>
          rw [insertBack]
          split <;> simp [ih, hx, hy]
      | false =>
        rw [insertBack]
        split
        · simp [List.filter_cons, ih, hx]
        · simp [List.filter_cons, hx]
  have all (sorted : List α) :
      (xs.foldl (fun sorted x => insertBack before x sorted) sorted).filter p =
        (xs.filter p).reverse ++ sorted.filter p := by
    induction xs generalizing sorted with
    | nil => rfl
    | cons x xs ih =>
      rw [List.foldl_cons, ih, one]
      cases hx : p x <;> simp [hx]
  rw [stableSort, List.filter_reverse, all [], List.filter_nil, List.append_nil, List.reverse_reverse]

end Sorting

def Extreme.opposite : Extreme → Extreme
  | .high => .low
  | .low => .high

/-- A number as it is compared where an extreme is looked for. -/
def Extreme.signed : Extreme → Int → Int
  | .high, i => -i
  | .low, i => i

namespace Entry

/-- Where an entry stands when the extreme comes first: its number, and its place among equals. -/
def key (extreme : Extreme) (e : Entry) : Int ×ₗ Nat :=
  toLex (extreme.signed e.shown.toInt64.toInt, e.status.order)

theorem key_lt_iff {extreme : Extreme} {a b : Entry} : a.key extreme < b.key extreme ↔
    extreme.signed a.shown.toInt64.toInt < extreme.signed b.shown.toInt64.toInt ∨
      extreme.signed a.shown.toInt64.toInt = extreme.signed b.shown.toInt64.toInt ∧
        a.status.order < b.status.order :=
  Prod.Lex.toLex_lt_toLex

/-- How many valid entries are ahead of an entry. -/
def rank (extreme : Extreme) (es : List Entry) (e : Entry) : Nat :=
  es.countP fun e' => e'.valid && decide (e'.key extreme < e.key extreme)

/-- An entry once the first `n` valid ones are dropped. -/
def dropAmong (extreme : Extreme) (n : Nat) (es : List Entry) (e : Entry) : Entry :=
  if e.valid && decide (e.rank extreme es < n) then e.mapStatus Status.drop else e

end Entry

namespace Stage

variable {extreme : Extreme} {es : List Entry}

/-- The entries as the stages sort them, with the extreme first. -/
def extremeFirst : Extreme → List Entry → List Entry
  | .high => sortDown
  | .low => sortUp

theorem extremeFirst_perm (extreme : Extreme) (es : List Entry) :
    (extremeFirst extreme es).Perm es := by
  cases extreme <;> exact stableSort_perm _ es

theorem invalidFirst_perm (es : List Entry) : (invalidFirst es).Perm es :=
  stableSort_perm _ es

theorem drop_eq (extreme : Extreme) (count : Number) (es : List Entry) :
    drop extreme count es =
      inOrder (dropFirst (boundedCount count es.length) (extremeFirst extreme es)) := by
  cases extreme <;> rfl

theorem keep_eq (extreme : Extreme) (count : Number) (es : List Entry) :
    keep extreme count es =
      inOrder (dropFirst (es.countP Entry.valid - boundedCount count es.length)
        (invalidFirst (extremeFirst extreme.opposite es))) := by
  cases extreme <;> rfl

section Sorted

/-- Entries in order are sorted by their numbers and places, though only numbers are compared. -/
theorem extremeFirst_eq (extreme : Extreme) (hes : Entry.Rising es)
    (hint : ∀ e ∈ es, e.shown.isInt = true) :
    extremeFirst extreme es =
      stableSort (fun a b => decide (a.key extreme < b.key extreme)) es := by
  have hboth : es.Pairwise fun a b =>
      a.status.order < b.status.order ∧ a.shown.isInt = true ∧ b.shown.isInt = true :=
    List.pairwise_iff_forall_sublist.mpr fun {a b} h =>
      ⟨List.pairwise_iff_forall_sublist.mp hes h, hint a (h.subset (by simp)),
        hint b (h.subset (by simp))⟩
  cases extreme with
  | high =>
    refine stableSort_congr (fun a b h => ?_) hboth
    obtain ⟨horder, ha, hb⟩ := h
    rw [Number.less_of_isInt ha hb, decide_eq_decide, Entry.key_lt_iff]
    simp only [Extreme.signed]
    omega
  | low =>
    refine stableSort_congr (fun a b h => ?_) hboth
    obtain ⟨horder, ha, hb⟩ := h
    rw [Number.less_of_isInt hb ha, decide_eq_decide, Entry.key_lt_iff]
    simp only [Extreme.signed]
    omega

/-- Entries of which each is ahead of those after it. -/
def Ranked (extreme : Extreme) (es : List Entry) : Prop :=
  es.Pairwise fun a b => a.key extreme < b.key extreme

theorem ranked_extremeFirst (extreme : Extreme) (hes : Entry.Rising es)
    (hint : ∀ e ∈ es, e.shown.isInt = true) : Ranked extreme (extremeFirst extreme es) := by
  rw [extremeFirst_eq extreme hes hint]
  have hdistinct : es.Pairwise fun a b => a.key extreme ≠ b.key extreme :=
    hes.imp fun h heq => absurd (congrArg (fun k => (ofLex k).2) heq) (Nat.ne_of_lt h)
  have hsorted := (stableSort_perm (fun a b : Entry => decide (a.key extreme < b.key extreme))
    es).symm.pairwise hdistinct fun h => h.symm
  exact ((pairwise_stableSort (Entry.key extreme) es).and hsorted).imp fun h => lt_of_le_of_ne h.1 h.2

theorem filter_valid_invalidFirst (es : List Entry) :
    (invalidFirst es).filter Entry.valid = es.filter Entry.valid :=
  filter_stableSort (fun a b ha _ => by simp [ha]) es

end Sorted

section Dropped

theorem countP_valid_dropFirst (n : Nat) (es : List Entry) :
    (dropFirst n es).countP Entry.valid = es.countP Entry.valid - n := by
  induction es generalizing n with
  | nil => simp [dropFirst_nil]
  | cons e es ih =>
    cases n with
    | zero => rfl
    | succ n =>
      have hdropped : (e.mapStatus Status.drop).valid = false := rfl
      by_cases h : e.valid
      · simp only [dropFirst, h, if_true, List.countP_cons, hdropped, ih]
        simp
      · simp [dropFirst, h, ih]

theorem dropFirst_min (n : Nat) (es : List Entry) :
    dropFirst (min n (es.countP Entry.valid)) es = dropFirst n es := by
  induction es generalizing n with
  | nil => rw [dropFirst_nil, dropFirst_nil]
  | cons e es ih =>
    cases n with
    | zero => rw [Nat.zero_min]
    | succ n =>
      by_cases h : e.valid
      · rw [List.countP_cons_of_pos h, Nat.succ_min_succ, dropFirst, dropFirst, if_pos h, if_pos h, ih]
      · rw [List.countP_cons_of_neg h]
        cases hcount : min (n + 1) (es.countP Entry.valid) with
        | zero => rw [dropFirst, dropFirst, if_neg h, ← ih (n + 1), hcount, dropFirst]
        | succ k => rw [dropFirst, dropFirst, if_neg h, if_neg h, ← hcount, ih]

section First

variable {n : Nat} {e e' : Entry}

theorem dropAmong_cons_of_not_valid (h : ¬ e.valid = true) (e' : Entry) :
    e'.dropAmong extreme n (e :: es) = e'.dropAmong extreme n es := by
  have hrank : e'.rank extreme (e :: es) = e'.rank extreme es :=
    List.countP_cons_of_neg (by simp [h])
  rw [Entry.dropAmong, Entry.dropAmong, hrank]

theorem dropAmong_cons_of_ahead (h : e.valid = true)
    (hahead : e'.valid = true → e.key extreme < e'.key extreme) :
    e'.dropAmong extreme (n + 1) (e :: es) = e'.dropAmong extreme n es := by
  by_cases hvalid : e'.valid = true
  · have hrank : e'.rank extreme (e :: es) = e'.rank extreme es + 1 :=
      List.countP_cons_of_pos (by simp [h, hahead hvalid])
    simp [Entry.dropAmong, hvalid, hrank]
  · simp [Entry.dropAmong, hvalid]

theorem dropAmong_cons_self (h : e.valid = true)
    (hahead : ∀ e' ∈ es, e'.valid = true → e.key extreme < e'.key extreme) :
    e.dropAmong extreme (n + 1) (e :: es) = e.mapStatus Status.drop := by
  have hfirst : e.rank extreme (e :: es) = 0 := by
    refine List.countP_eq_zero.mpr fun e' he' hlt => ?_
    obtain ⟨hvalid, hlt⟩ := Bool.and_eq_true_iff.mp hlt
    rcases List.mem_cons.mp he' with rfl | he'
    · exact lt_irrefl _ (of_decide_eq_true hlt)
    · exact lt_asymm (of_decide_eq_true hlt) (hahead e' he' hvalid)
  simp [Entry.dropAmong, h, hfirst]

end First

/-- Among ranked entries the first ones to drop are those with few valid ones ahead. -/
theorem dropFirst_eq_map (n : Nat) (hes : Ranked extreme (es.filter Entry.valid)) :
    dropFirst n es = es.map (Entry.dropAmong extreme n es) := by
  induction es generalizing n with
  | nil => exact dropFirst_nil n
  | cons e es ih =>
    cases n with
    | zero =>
      have hnone (e' : Entry) : e'.dropAmong extreme 0 (e :: es) = e' := by simp [Entry.dropAmong]
      rw [dropFirst, List.map_congr_left fun e' _ => hnone e', List.map_id']
    | succ n =>
      by_cases h : e.valid = true
      · rw [List.filter_cons_of_pos h] at hes
        obtain ⟨hhead, htail⟩ := List.pairwise_cons.mp hes
        have hahead : ∀ e' ∈ es, e'.valid = true → e.key extreme < e'.key extreme :=
          fun e' he' hvalid => hhead e' (List.mem_filter.mpr ⟨he', hvalid⟩)
        rw [dropFirst, if_pos h, ih n htail, List.map_cons, dropAmong_cons_self h hahead,
          List.map_congr_left fun e' he' => (dropAmong_cons_of_ahead h (hahead e' he')).symm]
      · rw [List.filter_cons_of_neg h] at hes
        have hkept : e.dropAmong extreme (n + 1) (e :: es) = e := by simp [Entry.dropAmong, h]
        rw [dropFirst, if_neg h, ih (n + 1) hes, List.map_cons, hkept,
          List.map_congr_left fun e' _ => (dropAmong_cons_of_not_valid h e').symm]

/-- Wherever ranked entries were moved to, the first of them are dropped where they stood. -/
theorem inOrder_dropFirst (n : Nat) {moved : List Entry} (hmoved : moved.Perm es)
    (hranked : Ranked extreme (moved.filter Entry.valid)) (hes : Entry.Rising es) :
    inOrder (dropFirst n moved) = es.map (Entry.dropAmong extreme n es) := by
  have hsame (e : Entry) : e.dropAmong extreme n moved = e.dropAmong extreme n es := by
    rw [Entry.dropAmong, Entry.dropAmong, Entry.rank, Entry.rank, hmoved.countP_eq]
  have horder (e : Entry) : (e.dropAmong extreme n es).status.order = e.status.order := by
    unfold Entry.dropAmong
    split <;> rfl
  have hrising : Entry.Rising (es.map (Entry.dropAmong extreme n es)) := by
    refine List.pairwise_map.mpr (hes.imp fun h => ?_)
    rwa [horder, horder]
  rw [dropFirst_eq_map n hranked, List.map_congr_left fun e _ => hsame e]
  exact inOrder_of_perm (hmoved.map _) hrising

theorem countP_valid_inOrder_dropFirst (n : Nat) {moved : List Entry} (hmoved : moved.Perm es) :
    (inOrder (dropFirst n moved)).countP Entry.valid = es.countP Entry.valid - n := by
  rw [inOrder, (stableSort_perm _ _).countP_eq, countP_valid_dropFirst, hmoved.countP_eq]

end Dropped

section Selected

theorem boundedCount_int (n : Int64) (size : Nat) :
    boundedCount (.int n) size = min n.toInt.toNat size :=
  rfl

/-- As many of the valid entries as a count asks for. -/
def asked (n : Int64) (es : List Entry) : Nat :=
  min n.toInt.toNat (es.countP Entry.valid)

theorem min_boundedCount (n : Int64) (es : List Entry) :
    min (boundedCount (.int n) es.length) (es.countP Entry.valid) = asked n es := by
  have hle : es.countP Entry.valid ≤ es.length := List.countP_le_length
  rw [boundedCount_int, asked, Nat.min_assoc, Nat.min_eq_right hle]

theorem countP_valid_drop (extreme : Extreme) (n : Int64) (es : List Entry) :
    (drop extreme (.int n) es).countP Entry.valid = es.countP Entry.valid - asked n es := by
  rw [drop_eq, countP_valid_inOrder_dropFirst _ (extremeFirst_perm extreme es), ← min_boundedCount]
  omega

theorem countP_valid_keep (extreme : Extreme) (n : Int64) (es : List Entry) :
    (keep extreme (.int n) es).countP Entry.valid = asked n es := by
  have hperm := (invalidFirst_perm _).trans (extremeFirst_perm extreme.opposite es)
  rw [keep_eq, countP_valid_inOrder_dropFirst _ hperm, ← min_boundedCount]
  omega

variable (hes : Entry.Rising es) (hint : ∀ e ∈ es, e.shown.isInt = true)

include hes hint

theorem drop_eq_map (extreme : Extreme) (n : Int64) :
    drop extreme (.int n) es = es.map (Entry.dropAmong extreme (asked n es) es) := by
  have hperm := extremeFirst_perm extreme es
  rw [drop_eq, ← dropFirst_min, hperm.countP_eq, min_boundedCount]
  exact inOrder_dropFirst _ hperm ((ranked_extremeFirst extreme hes hint).filter _) hes

theorem keep_eq_map (extreme : Extreme) (n : Int64) :
    keep extreme (.int n) es = es.map
      (Entry.dropAmong extreme.opposite (es.countP Entry.valid - asked n es) es) := by
  have hcount : es.countP Entry.valid - boundedCount (.int n) es.length =
      es.countP Entry.valid - asked n es := by
    rw [← min_boundedCount]
    omega
  have hperm := extremeFirst_perm extreme.opposite es
  rw [keep_eq, hcount]
  refine inOrder_dropFirst _ ((invalidFirst_perm _).trans hperm) ?_ hes
  rw [filter_valid_invalidFirst]
  exact (ranked_extremeFirst extreme.opposite hes hint).filter _

theorem keep_eq_drop (extreme : Extreme) {n m : Int64} (hn : 0 ≤ n.toInt) (hm : 0 ≤ m.toInt)
    (hsum : n.toInt + m.toInt = es.countP Entry.valid) :
    keep extreme (.int n) es = drop extreme.opposite (.int m) es := by
  have hrest : es.countP Entry.valid - asked n es = asked m es := by
    simp only [asked]
    omega
  rw [keep_eq_map hes hint, drop_eq_map hes hint, hrest]

/-- Of the entries that are valid, keeping leaves as many as asked for and dropping leaves the rest.
What goes is what comes first from the other end, or from the extreme, equals in the order in which
they stand; it is dropped in its place, and all else comes back as it was. -/
theorem keep_drop_select (extreme : Extreme) (n : Int64) :
    (keep extreme (.int n) es = es.map
        (Entry.dropAmong extreme.opposite (es.countP Entry.valid - asked n es) es) ∧
      (keep extreme (.int n) es).countP Entry.valid = asked n es) ∧
    (drop extreme (.int n) es = es.map (Entry.dropAmong extreme (asked n es) es) ∧
      (drop extreme (.int n) es).countP Entry.valid = es.countP Entry.valid - asked n es) ∧
    ∀ m : Int64, 0 ≤ n.toInt → 0 ≤ m.toInt → n.toInt + m.toInt = es.countP Entry.valid →
      keep extreme (.int n) es = drop extreme.opposite (.int m) es :=
  ⟨⟨keep_eq_map hes hint extreme n, countP_valid_keep extreme n es⟩,
    ⟨drop_eq_map hes hint extreme n, countP_valid_drop extreme n es⟩,
    fun _ hn hm hsum => keep_eq_drop hes hint extreme hn hm hsum⟩

end Selected

/-- Of three dice that are left, a four goes and the twos stay; the four that was dropped before is
not among them. -/
theorem keep_drop_select_ties : ∃ es : List Entry, Entry.Rising es ∧
    (∀ e ∈ es, e.shown.isInt = true) ∧ es.map Entry.valid = [true, true, false, true] ∧
    keep .low (.int 2) es = drop .high (.int 1) es ∧
    (keep .low (.int 2) es).map Entry.valid = [false, true, false, true] := by
  let es : List Entry := [⟨0, .int 4, ⟨.int 4, true, false, 0, 0, none, 0⟩⟩,
    ⟨1, .int 2, ⟨.int 2, true, false, 0, 0, none, 1⟩⟩,
    ⟨2, .int 4, ⟨.int 4, false, true, 0, 0, none, 2⟩⟩,
    ⟨3, .int 2, ⟨.int 2, true, false, 0, 0, none, 3⟩⟩]
  have hes : Entry.Rising es := by simp [es, Entry.Rising]
  have hint : ∀ e ∈ es, e.shown.isInt = true := by simp [es, Number.isInt]
  obtain ⟨⟨hkeep, -⟩, -, hdual⟩ := keep_drop_select hes hint .low 2
  refine ⟨es, hes, hint, rfl, hdual 1 (by decide) (by decide) (by decide), ?_⟩
  rw [hkeep]
  decide

end Stage

end DiceNotation

import DiceNotation.Proofs.Grammar.Decided.Additions

/-! Terms are decided, if the formulas in their brackets are. What stands in a bracket or after a
comma is a whole formula; a group is decided from its end: its modifiers, the closing brace, the other
members, the first. -/

namespace DiceNotation

open Token (Kind Piece Genuine)

namespace Parser

section Terms

variable {k : Kind} {text : List Char} {xs ys : List Piece}

theorem faces_run_none {inner : Parser Formula} {ts : List Token}
    (h : ∀ t ∈ ts.head?, startsValue t.kind = false ∧ t.kind ≠ .percent ∧ t.kind ≠ .fate) :
    faces inner ts = unexpected [.integer, .percent, .fate, .leftParen] ts := by
  cases ts with
  | nil => rfl
  | cons t ts =>
    obtain ⟨hvalue, hpercent, hfate⟩ := h t rfl
    obtain ⟨k, start, stop, text⟩ := t
    cases k <;> first | rfl | exact absurd rfl hpercent | exact absurd rfl hfate | cases hvalue

theorem decides_faces (hI : DecidedBelow xs.length) :
    Decides (fun n _ => faces (formula n)) (fun s => Grammar (.faces s)) xs := by
  have hvalued {k : Kind} (h : startsValue k = true) : Reaches (fun s => Grammar (.faces s)) [] k := by
    obtain ⟨text, ws, f, hws, hf⟩ := reaches_value h
    exact ⟨text, ws, _, hws, .sides hf⟩
  have hpercent : Kind.percent.Matches ['%'] := rfl
  have hfate : Kind.fate.Matches ['F'] := rfl
  by_cases hxs : ∀ p ∈ xs.head?, startsValue p.1 = false ∧ p.1 ≠ .percent ∧ p.1 ≠ .fate
  · refine .unexpected (List.cons_ne_nil _ _) ?_ fun n m ts hts => faces_run_none
      (forall_head?_kind (P := fun k => startsValue k = false ∧ k ≠ .percent ∧ k ≠ .fate) hxs hts)
    simp only [List.forall_mem_cons]
    exact ⟨hvalued rfl, ⟨_, _, _, genuine_cons hpercent genuine_nil, .percent _⟩,
      ⟨_, _, _, genuine_cons hfate genuine_nil, .fate _⟩, hvalued rfl, nofun⟩
  · obtain ⟨⟨k, text⟩, ys, rfl, hk⟩ := exists_cons_of_not_forall hxs
    by_cases hvalue : startsValue k = true
    · have hsides := (decides_value text hI hvalue).map (g := Faces.sides)
        (N := fun s => Grammar (.faces s)) fun _ _ h => .sides h
      exact hsides.head fun n m t ts ht _ => faces_run_value (ht ▸ hvalue)
    · by_cases hpercent : k = .percent
      · subst hpercent
        exact .skip (q := fun _ _ => pure (.sides (.int 100)))
          (.done (.percent text) fun _ _ _ _ => rfl) fun n m t ts ht _ => faces_run_percent ht
      · by_cases hfate : k = .fate
        · subst hfate
          exact .skip (q := fun _ _ => pure .fate) (.done (.fate text) fun _ _ _ _ => rfl)
            fun n m t ts ht _ => faces_run_fate ht
        · exact absurd ⟨by simpa using hvalue, hpercent, hfate⟩ hk

/-- Dice after their count. -/
theorem decides_dice {count : Formula} {ps : List Piece} (text : List Char)
    (hI : DecidedBelow (ys.length + 1)) (hcount : Grammar (.count (.int 1) count) ps) :
    Decides (fun n _ => dice (formula n) count)
      (fun f ws => Grammar (.unlabeled f) (ps ++ ws)) ((.dice, text) :: ys) := by
  have hdie {s : Faces Formula} {qs rs : List Piece} {xs : List Addition} (d : List Char)
      (hs : Grammar (.faces s) qs) (hxs : Grammar (.additions .die false xs) rs) :
      Grammar (.unlabeled (.die (xs.foldl Die.add (.plain count s))))
        (ps ++ (.dice, d) :: (qs ++ rs)) := by
    have hdice : Grammar _ (ps ++ (.dice, d) :: qs ++ rs) := .dice hcount hs hxs
    rwa [List.append_assoc] at hdice
  have hbelow : DecidedBelow ys.length := hI.mono (Nat.le_succ _)
  have hrest {s : Faces Formula} {qs zs : List Piece} (hys : ys = qs ++ zs)
      (hs : Grammar (.faces s) qs) :
      Decides (fun n _ => remaining >>= fun k => Formula.die <$> dieRest (formula n) k (.plain count s))
        (fun f ws => Grammar (.unlabeled f) (ps ++ (.dice, text) :: (qs ++ ws))) zs := by
    have hzs : DecidedBelow zs.length := hbelow.mono (length_le_of_append hys)
    have hadditions : Decides (fun n m => additions .die (formula n) m)
        (fun xs => Grammar (.additions .die false xs)) zs := decides_additions hzs nofun
    refine (hadditions.map (g := fun xs => Formula.die (xs.foldl Die.add (.plain count s)))
      fun xs rs hxs => hdie text hs hxs).congr fun n m ts _ hn _ => ⟨n, ts.length, hn, le_rfl, ?_⟩
    rw [bind_run remaining_run, dieRest_eq, Functor.map_map]
  have hdice := (decides_faces hbelow).bind
    (N := fun f ws => Grammar (.unlabeled f) (ps ++ (.dice, text) :: ws))
    (fun s qs zs hys hs _ => hrest hys hs)
    fun s qs hs => ⟨[], _, genuine_nil, hdie text hs .nothing⟩
  refine hdice.skip fun n m t ts ht _ => ?_
  rw [dice, bind_run (take_run ht)]
  simp only [map_eq_pure_bind]

theorem decides_countOrValue {f : Formula} {ps : List Piece} (hI : DecidedBelow xs.length)
    (hf : Grammar (.value f) ps) :
    Decides (fun n _ => countOrValue (formula n) f)
      (fun g ws => Grammar (.unlabeled g) (ps ++ ws)) xs := by
  by_cases hxs : xs.head?.map Prod.fst = some .dice
  · obtain ⟨text, ys, rfl⟩ := exists_cons_of_head? hxs
    refine (decides_dice _ hI (.count hf)).head fun n m t ts ht _ => ?_
    rw [countOrValue, bind_run (peek_cons ht), if_pos rfl]
  · refine .done (by rw [List.append_nil]; exact .plain hf) fun n m ts hts => ?_
    rw [countOrValue, bind_run peek_run, map_kind_head? hts, if_neg hxs]
    rfl

section Brackets

variable {f : Formula} {fs : List Formula} {ps qs rs : List Piece}

theorem Whole.member (hf : Whole f ps) (hfs : Grammar (.members fs) qs) :
    Grammar (.members (f :: fs)) ((.comma, text) :: (ps ++ qs)) := by
  obtain ⟨head, tail, h, rfl⟩ := hf
  exact .member h hfs

theorem Whole.group (hf : Whole f ps) (hfs : Grammar (.members fs) qs) (r : List Char)
    {xs : List Addition} (hxs : Grammar (.additions .group false xs) rs) :
    Grammar (.unlabeled (.bare (.group f fs (xs.flatMap Addition.modifiers))))
      ((.leftBrace, text) :: (ps ++ (qs ++ (.rightBrace, r) :: rs))) := by
  obtain ⟨head, tail, h, rfl⟩ := hf
  have hgroup : Grammar _ ((.leftBrace, text) :: ps ++ qs ++ (.rightBrace, r) :: rs) :=
    .group h hfs hxs
  rwa [List.cons_append, List.cons_append, List.append_assoc] at hgroup

theorem Whole.inline (hf : Whole f ps) (r : List Char) :
    Grammar (.unlabeled (.bare (.inline f)))
      ((.inlineOpen, text) :: (ps ++ [(.inlineClose, r)])) := by
  obtain ⟨head, tail, h, rfl⟩ := hf
  exact .inline h

theorem decides_members (hI : DecidedBelow (xs.length + 1)) :
    Decides (fun n m => members (formula (n + 1)) m) (fun fs => Grammar (.members fs)) xs := by
  induction h : xs.length using Nat.strong_induction_on generalizing xs with
  | _ length ih =>
    by_cases hxs : xs.head?.map Prod.fst = some .comma
    · obtain ⟨text, ys, rfl⟩ := exists_cons_of_head? hxs
      have hlt : ys.length < length := h ▸ Nat.lt_succ_self _
      have hloop := (hI ys (Nat.lt_succ_of_lt (Nat.lt_succ_self _))).bind
        (N := fun fs ws => Grammar (.members fs) ((.comma, text) :: ws))
        (f := fun f n m => (f :: ·) <$> members (formula (n + 1)) m)
        (fun f ps qs hys hf _ => by
          have hqs : qs.length < length := (length_le_of_append hys).trans_lt hlt
          have hmore := ih qs.length hqs (hI.mono (h ▸ Nat.le_succ_of_le hqs)) rfl
          exact hmore.map fun fs ws hfs => hf.member hfs)
        fun f ps hf => ⟨[], _, genuine_nil, hf.member .alone⟩
      refine hloop.turn fun n m t ts ht _ => ?_
      rw [members, bind_run (peek_cons ht), if_pos rfl, bind_run (skip_run t)]
      simp only [nested, map_eq_pure_bind]
    · refine .done .alone fun n m ts hts => ?_
      cases m with
      | zero => rfl
      | succ m =>
        rw [members, bind_run peek_run, map_kind_head? hts, if_neg hxs]
        rfl

theorem genuine_rightBrace : Genuine [(.rightBrace, ['\x7d'])] :=
  genuine_cons rfl genuine_nil

theorem decides_groupMods (hf : Whole f ps) (hfs : Grammar (.members fs) qs) (r : List Char)
    (hI : DecidedBelow xs.length) :
    Decides (fun n _ => remaining >>= fun k =>
        (fun mods => Formula.bare (.group f fs mods)) <$> groupRest (formula (n + 1)) k)
      (fun g ws => Grammar (.unlabeled g)
        ((.leftBrace, text) :: (ps ++ (qs ++ (.rightBrace, r) :: ws)))) xs := by
  have hadditions : Decides (fun n m => additions .group (formula n) m)
      (fun zs => Grammar (.additions .group false zs)) xs := decides_additions hI nofun
  have hmods := hadditions.shift.map
    (g := fun zs => Formula.bare (.group f fs (zs.flatMap Addition.modifiers)))
    (N := fun g ws => Grammar (.unlabeled g)
      ((.leftBrace, text) :: (ps ++ (qs ++ (.rightBrace, r) :: ws))))
    fun zs rs hzs => hf.group hfs r hzs
  refine hmods.congr fun n m ts _ hn _ => ⟨n, ts.length, hn, le_rfl, ?_⟩
  rw [bind_run remaining_run, groupRest_eq, Functor.map_map]

theorem decides_groupClose (hf : Whole f ps) (hfs : Grammar (.members fs) qs)
    (hI : DecidedBelow xs.length) :
    Decides (fun n _ => take .rightBrace >>= fun _ => remaining >>= fun k =>
        (fun mods => Formula.bare (.group f fs mods)) <$> groupRest (formula (n + 1)) k)
      (fun g ws => Grammar (.unlabeled g) ((.leftBrace, text) :: (ps ++ (qs ++ ws)))) xs := by
  refine .take ⟨_, _, _, genuine_rightBrace, hf.group hfs _ .nothing⟩ fun r ys hxs => ?_
  exact decides_groupMods hf hfs r (hI.mono (by rw [hxs]; exact Nat.le_succ _))

theorem decides_groupMembers (hf : Whole f ps) (hI : DecidedBelow (xs.length + 1)) :
    Decides (fun n _ => remaining >>= fun k => members (formula (n + 1)) k >>= fun fs =>
        take .rightBrace >>= fun _ => remaining >>= fun k =>
        (fun mods => Formula.bare (.group f fs mods)) <$> groupRest (formula (n + 1)) k)
      (fun g ws => Grammar (.unlabeled g) ((.leftBrace, text) :: (ps ++ ws))) xs := by
  have hmembers := (decides_members hI).bind
    (N := fun g ws => Grammar (.unlabeled g) ((.leftBrace, text) :: (ps ++ ws)))
    (fun fs qs rs hxs hfs _ => decides_groupClose hf hfs
      (hI.mono (Nat.le_succ_of_le (length_le_of_append hxs))))
    fun fs qs hfs => ⟨_, _, genuine_rightBrace, hf.group hfs _ .nothing⟩
  refine hmembers.congr fun n m ts _ hn _ => ⟨n, ts.length, hn, le_rfl, ?_⟩
  rw [bind_run remaining_run]

theorem decides_group (hI : DecidedBelow (ys.length + 1)) :
    Decides (fun n _ => group (formula n)) (fun f => Grammar (.unlabeled f))
      ((.leftBrace, text) :: ys) := by
  have hfirst := (hI ys (Nat.lt_succ_self _)).bind
    (N := fun g ws => Grammar (.unlabeled g) ((.leftBrace, text) :: ws))
    (fun f ps qs hys hf _ => decides_groupMembers hf
      (hI.mono (Nat.succ_le_succ (length_le_of_append hys))))
    fun f ps hf => ⟨_, _, genuine_rightBrace, hf.group .alone _ .nothing⟩
  refine hfirst.descend fun n m t ts ht _ => ?_
  rw [group, bind_run (take_run ht)]
  simp only [nested, map_eq_pure_bind]

theorem decides_inline (hI : DecidedBelow (ys.length + 1)) :
    Decides (fun n _ => inline (formula n)) (fun f => Grammar (.unlabeled f))
      ((.inlineOpen, text) :: ys) := by
  have hright : Genuine [(.inlineClose, [']', ']'])] := genuine_cons rfl genuine_nil
  have hfirst := (hI ys (Nat.lt_succ_self _)).bind
    (N := fun g ws => Grammar (.unlabeled g) ((.inlineOpen, text) :: ws))
    (f := fun f _ _ => take .inlineClose >>= fun _ => pure (Formula.bare (.inline f)))
    (fun f ps qs hys hf _ => .take ⟨_, _, _, hright, hf.inline _⟩
      fun r zs _ => .done (hf.inline r) fun _ _ _ _ => rfl)
    fun f ps hf => ⟨_, _, hright, hf.inline _⟩
  refine hfirst.descend fun n m t ts ht _ => ?_
  rw [inline, bind_run (take_run ht)]
  rfl

end Brackets

theorem reaches_unlabeled {k : Kind} (h : k ∈ starters) :
    Reaches (fun f => Grammar (.unlabeled f)) [] k := by
  have hvalued {k : Kind} (h : startsValue k = true) :
      Reaches (fun f => Grammar (.unlabeled f)) [] k :=
    (reaches_value h).mono fun _ _ h => .plain h
  simp only [starters, List.mem_cons, List.not_mem_nil, or_false] at h
  rcases h with rfl | rfl | rfl | rfl | rfl | rfl
  · exact hvalued rfl
  · exact hvalued rfl
  · have hdice : Kind.dice.Matches ['d'] := rfl
    exact ⟨_, _, _, genuine_cons hdice genuine_one,
      .dice (.default _) (.sides grammar_one) .nothing⟩
  · exact hvalued rfl
  · have hleft : Kind.leftBrace.Matches ['\x7b'] := rfl
    have hright : Kind.rightBrace.Matches ['\x7d'] := rfl
    exact ⟨_, _, _, genuine_cons hleft (genuine_append genuine_one
      (genuine_cons hright genuine_nil)), .group (grammar_sum grammar_one) .alone .nothing⟩
  · have hleft : Kind.inlineOpen.Matches ['[', '['] := rfl
    have hright : Kind.inlineClose.Matches [']', ']'] := rfl
    exact ⟨_, _, _, genuine_cons hleft (genuine_append genuine_one
      (genuine_cons hright genuine_nil)), .inline (grammar_sum grammar_one)⟩

/-- Whether a term may start with a token of the kind. -/
def startsTerm (k : Kind) : Bool :=
  startsValue k || k == .dice || k == .leftBrace || k == .inlineOpen || k == .replacement ||
    (function? k).isSome

theorem unlabeled_run_none {inner : Parser Formula} {ts : List Token}
    (h : ∀ t ∈ ts.head?, startsTerm t.kind = false) :
    unlabeled inner ts = unexpected starters ts := by
  cases ts with
  | nil => rfl
  | cons t ts =>
    have hk := h t rfl
    obtain ⟨k, start, stop, text⟩ := t
    cases k <;> first | rfl | cases hk

theorem decides_unlabeled (hI : DecidedBelow xs.length) :
    Decides (fun n _ => unlabeled (formula n)) (fun f => Grammar (.unlabeled f)) xs := by
  by_cases hxs : ∀ p ∈ xs.head?, startsTerm p.1 = false
  · exact .unexpected (List.cons_ne_nil _ _) (fun k => reaches_unlabeled) fun n m ts hts =>
      unlabeled_run_none (forall_head?_kind (P := (startsTerm · = false)) hxs hts)
  · obtain ⟨⟨k, text⟩, ys, rfl, hk⟩ := exists_cons_of_not_forall hxs
    have hbelow : DecidedBelow ys.length := hI.mono (Nat.le_succ _)
    by_cases hvalue : startsValue k = true
    · have hterm := (decides_value text hI hvalue).bind
        (N := fun f => Grammar (.unlabeled f))
        (fun f ps qs hys hf _ => decides_countOrValue (hI.mono (length_le_of_append hys)) hf)
        fun f ps hf => ⟨[], f, genuine_nil, by rw [List.append_nil]; exact .plain hf⟩
      exact hterm.head fun n m t ts ht _ => unlabeled_run_value (ht ▸ hvalue)
    · cases hfunction : function? k with
      | some g =>
        have hterm := (decides_parens hbelow).map (g := fun f => Formula.bare (.function g f))
          (N := fun f ps => Grammar (.unlabeled f) ((k, text) :: ps))
          fun _ _ h => .function hfunction h
        exact hterm.skip fun n m t ts ht _ => unlabeled_run_function (ht ▸ hfunction)
      | none =>
        cases k with
        | dice =>
          have hdice := decides_dice text hI (.default (.int 1))
          exact hdice.head fun n m t ts ht _ => unlabeled_run_dice ht
        | leftBrace => exact (decides_group hI).head fun n m t ts ht _ => unlabeled_run_group ht
        | inlineOpen => exact (decides_inline hI).head fun n m t ts ht _ => unlabeled_run_inline ht
        | replacement =>
          have hterm := (decides_parens hbelow).map
            (g := fun f => Formula.bare (.replacement (String.ofList (text.drop 1)) f))
            (N := fun f ps => Grammar (.unlabeled f) ((.replacement, text) :: ps))
            fun _ _ h => .replacement h
          refine hterm.skip fun n m t ts ht htext => ?_
          rw [unlabeled_run_replacement ht, htext]
        | _ => first | exact absurd rfl hk | exact absurd rfl hvalue | cases hfunction

theorem decides_labels {f : Formula} {ps : List Piece} (texts : List (List Char))
    (hf : Grammar (.unlabeled f) ps) :
    Decides (fun _ m => labels m (labeled f texts)) (fun g ws => Grammar (.term g)
      (ps ++ (texts.map (fun text => (Kind.label, text)) ++ ws))) xs := by
  induction xs generalizing texts with
  | nil =>
    refine .done (by simpa using hf.labels texts) fun n m ts hts => labels_run_none ?_ m _
    exact forall_head?_kind (P := (· ≠ .label)) (by simp) hts
  | cons x xs ih =>
    obtain ⟨k, text⟩ := x
    by_cases hk : k = .label
    · subst hk
      have hmore := (ih (texts ++ [text])).mono (M := fun g ws => Grammar (.term g)
        (ps ++ (texts.map (fun text => (Kind.label, text)) ++ (.label, text) :: ws)))
        fun g ws hg => by simpa using hg
      refine hmore.turn fun n m t ts ht htext => ?_
      rw [labels_run_label ht, htext, labeled, labeled, List.foldl_append]
      rfl
    · refine .done (by simpa using hf.labels texts) fun n m ts hts => labels_run_none ?_ m _
      exact forall_head?_kind (P := (· ≠ .label)) (by simpa using hk) hts

theorem decides_term (hI : DecidedBelow xs.length) :
    Decides (fun n _ => term (formula n)) (fun f => Grammar (.term f)) xs := by
  refine (decides_unlabeled hI).bind (fun f ps qs hxs hf _ => ?_) fun f ps hf =>
    ⟨[], f, genuine_nil, by rw [List.append_nil]; exact hf.unlabeled⟩
  exact (decides_labels [] hf).congr fun n m ts _ hn _ => ⟨n, ts.length, hn, le_rfl, rfl⟩

end Terms

end Parser

end DiceNotation

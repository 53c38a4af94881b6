import DiceNotation.Outcome.Render
import DiceNotation.Proofs.Arithmetic.Formulas
import DiceNotation.Proofs.Arithmetic.Joining
import DiceNotation.Proofs.Arithmetic.Parsing

/-! Arithmetic as its outcome writes it. No parentheses are written, so the line before the value is a
formula again, of the same numbers and operators in the same order. It comes to the same number if no
operand needs parentheses where it stands. -/

namespace DiceNotation

open Play
open Token (Kind Piece)

/-- The digits of an integer, after a minus sign if it is negative. -/
def integerPieces (i : Int64) : List Piece :=
  let digits : Piece := (.integer, (toString i.toInt.natAbs).toList)
  if i.toInt < 0 then [(.minus, ['-']), digits] else [digits]

mutual
/-- The tokens of arithmetic from left to right, without parentheses. -/
def Formula.line : Formula → List Piece
  | ⟨.number (.int i), _⟩ => integerPieces i
  | ⟨.arithmetic head tail, _⟩ => head.line ++ tailLine tail
  | _ => []

def tailLine : List (Operator × Formula) → List Piece
  | [] => []
  | (op, f) :: tail => (op.kind, op.symbol.toList) :: f.line ++ tailLine tail
end

/-- How tightly arithmetic binds on its line: a chain as its operators do, and a negative integer as the
minus sign. -/
def Formula.rank : Formula → Nat
  | ⟨.number n, _⟩ => if n.less .zero then 2 else 4
  | ⟨.arithmetic _ ((op, _) :: _), _⟩ => op.rank
  | _ => 4

mutual
/-- Whether arithmetic needs no parentheses: no operand of a chain binds more loosely than its place asks
for. -/
def Formula.unenclosed : Formula → Bool
  | ⟨.arithmetic head tail, _⟩ => head.unenclosed && tailUnenclosed head.rank tail
  | _ => true

def tailUnenclosed (headRank : Nat) : List (Operator × Formula) → Bool
  | [] => true
  | (op, f) :: tail =>
    decide (op.leftRank ≤ headRank ∧ op.rightRank ≤ f.rank) && f.unenclosed &&
      tailUnenclosed headRank tail
end

theorem tailUnenclosed_iff {headRank : Nat} {tail : List (Operator × Formula)} :
    tailUnenclosed headRank tail = true ↔ ∀ t ∈ tail,
      (t.1.leftRank ≤ headRank ∧ t.1.rightRank ≤ t.2.rank) ∧ t.2.unenclosed = true := by
  induction tail with
  | nil => simp [tailUnenclosed]
  | cons t tail ih =>
    simp only [tailUnenclosed, Bool.and_eq_true, decide_eq_true_eq, ih, List.forall_mem_cons]

theorem unenclosed_chain_iff {head : Formula} {tail : List (Operator × Formula)} :
    (Formula.bare (.arithmetic head tail)).unenclosed = true ↔ head.unenclosed = true ∧ ∀ t ∈ tail,
      (t.1.leftRank ≤ head.rank ∧ t.1.rightRank ≤ t.2.rank) ∧ t.2.unenclosed = true := by
  rw [Formula.bare, Formula.unenclosed, Bool.and_eq_true, tailUnenclosed_iff]

section Integers

variable {i : Int64}

theorem rank_int (i : Int64) : (Formula.int i).rank = if i.toInt < 0 then 2 else 4 := by
  have hless : (Number.int i).less .zero = decide (i.toInt < 0) := Number.less_int_int i 0
  simp only [Formula.int, Formula.number, Formula.bare, Formula.rank, hless, decide_eq_true_eq]

theorem denotes_integerPieces (h : i ≠ Int64.minValue) :
    Denotes (Formula.int i).rank (integerPieces i) (Formula.int i).result := by
  obtain ⟨n, hn⟩ := exists_literal h
  have hliteral : Derives (.term (.int (Int64.ofInt n.val))) [(.integer, n.text.toList)] :=
    .literal n.integer?_text
  rw [Literal.text, hn] at hliteral
  rw [rank_int, integerPieces]
  by_cases hneg : i.toInt < 0
  · rw [if_pos hneg, if_pos hneg]
    have hsigned : Derives (.signed (Parser.opposite (.int (Int64.ofInt i.toInt.natAbs))))
        [(.minus, ['-']), (.integer, (toString i.toInt.natAbs).toList)] := hliteral.unsigned.minus
    rw [opposite_natAbs h hneg] at hsigned
    exact hsigned.denotes (means_int h) (Nat.le_succ 2)
  · have hvalue : Int64.ofInt i.toInt.natAbs = i := by
      rw [show (i.toInt.natAbs : Int) = i.toInt by omega, Int64.ofInt_toInt]
    rw [hvalue] at hliteral
    rw [if_neg hneg, if_neg hneg]
    exact hliteral.denotes (means_int h) le_rfl

theorem writes_integerPieces (h : i ≠ Int64.minValue) :
    Writes (Number.int i).text (integerPieces i) := by
  obtain ⟨n, hn⟩ := exists_literal h
  have hdigits : Writes n.text [(.integer, n.text.toList)] := fun cs ps hcs h =>
    n.spells (not_isDigit_of_ends hcs) h
  rw [Literal.text, hn] at hdigits
  rw [Number.text, integerPieces]
  cases hi : i.toInt with
  | ofNat k =>
    rw [hi] at hdigits
    exact hdigits
  | negSucc k =>
    rw [hi] at hdigits
    rw [if_pos (Int.negSucc_lt_zero k)]
    intro cs ps hcs h
    have hsign : (toString (Int.negSucc k)).toList = '-' :: (toString (k + 1)).toList :=
      String.toList_append
    rw [hsign]
    exact .single rfl rfl (hdigits cs ps hcs h)

end Integers

section Reading

variable {f : Formula} {rank : Nat} {ps : List Piece}

theorem Denotes.stands {p : Play Number} (h : Denotes rank ps p) : Stands rank ps := by
  obtain ⟨phrase, hrank, hderives, -⟩ := h
  exact hderives.stands hrank

theorem stands_tailLine {tail : List (Operator × Formula)} (h : Stands 0 ps)
    (htail : ∀ t ∈ tail, Stands 0 t.2.line) : Stands 0 (ps ++ tailLine tail) := by
  induction tail generalizing ps with
  | nil => simpa only [tailLine, List.append_nil] using h
  | cons t tail ih =>
    obtain ⟨ht, htail⟩ := List.forall_mem_cons.mp htail
    have hjoined : Stands 0 (ps ++ (t.1.kind, t.1.symbol.toList) :: t.2.line) := h.join t.1 ht
    simpa only [tailLine, List.append_assoc, List.cons_append] using ih hjoined htail

/-- The line of arithmetic is arithmetic. -/
theorem Formula.Arithmetic.stands (h : f.Arithmetic) : Stands 0 f.line := by
  induction h with
  | number hi => exact (denotes_integerPieces hi).stands.mono (Nat.zero_le _)
  | @chain head f op tail hhead hf hlevel htail ihhead ihf ihtail =>
    rw [bare, line]
    exact stands_tailLine ihhead (List.forall_mem_cons.mpr ⟨ihf, ihtail⟩)

/-- All that stands before a tail is the left operand of its first operator. -/
theorem denotes_tailLine {tail : List (Operator × Formula)} {p : Play Number}
    (hrank : rank < 4) (hlevel : ∀ t ∈ tail, t.1.leftRank = rank) (h : Denotes rank ps p)
    (htail : ∀ t ∈ tail, Denotes t.1.rightRank t.2.line t.2.result) :
    Denotes rank (ps ++ tailLine tail) (p >>= foldTail tail) := by
  induction tail generalizing ps p with
  | nil =>
    have hnil : p >>= foldTail [] = p := bind_pure p
    rwa [tailLine, List.append_nil, hnil]
  | cons t tail ih =>
    obtain ⟨op, f⟩ := t
    obtain ⟨hop, hlevel⟩ := List.forall_mem_cons.mp hlevel
    obtain ⟨hf, htail⟩ := List.forall_mem_cons.mp htail
    have hsame : op.rank = rank := by
      cases op with
      | pow => exact absurd hrank (by simp [← hop, Operator.leftRank])
      | add | sub | mul | div | rem => exact hop
    rw [← hop] at h
    have hjoined : Denotes op.rank (ps ++ (op.kind, op.symbol.toList) :: f.line)
        (combined op p f.result) := h.binary op hf
    rw [hsame] at hjoined
    have hfold := ih hlevel hjoined htail
    simp only [combined, bind_assoc] at hfold
    simpa only [tailLine, List.append_assoc, List.cons_append, foldTail] using hfold

/-- The line of arithmetic that needs no parentheses comes to the same. -/
theorem Formula.Arithmetic.denotes (h : f.Arithmetic) (hf : f.unenclosed = true) :
    Denotes f.rank f.line f.result := by
  induction h with
  | number hi => exact denotes_integerPieces hi
  | @chain head f op tail hhead _ hlevel htail ihhead ihf ihtail =>
    obtain ⟨hunhead, huntail⟩ := unenclosed_chain_iff.mp hf
    obtain ⟨⟨⟨hleft, hright⟩, hunf⟩, huntail⟩ := List.forall_mem_cons.mp huntail
    have hlt : op.rank < 4 := by cases op <;> decide
    have hfirst : Denotes op.rank (head.line ++ (op.kind, op.symbol.toList) :: f.line)
        (combined op head.result f.result) :=
      ((ihhead hunhead).mono hleft).binary op ((ihf hunf).mono hright)
    have hchain := denotes_tailLine hlt hlevel hfirst fun t ht =>
      (ihtail t ht (huntail t ht).2).mono (huntail t ht).1.2
    have hresult : combined op head.result f.result >>= foldTail tail =
        (bare (.arithmetic head ((op, f) :: tail))).result := by
      simp only [result_arithmetic, combined, foldTail, bind_assoc]
    rw [hresult] at hchain
    simpa only [bare, line, rank, tailLine, List.append_assoc, List.cons_append] using hchain

end Reading

section Writing

variable {f : Formula} {table : Table}

theorem write_place (style : Style) (struck : Bool) (o : Outcome) (order : Nat) :
    style.write struck (o.place order) = style.write struck o := by
  cases o
  rfl

theorem write_bare (body : Body) (value : Number) :
    Style.plain.write false (.bare body value) = Style.plain.writeBody false value body := by
  rw [Outcome.bare, Style.write]
  exact String.append_empty

/-- Whatever the formula comes to is written as its line. -/
def Formula.WritesLine (table : Table) (f : Formula) : Prop :=
  ∀ n, f.roll.Gives table n fun o _ => Writes (Style.plain.write false o) f.line

theorem gives_writes_tailLine {tail : List (Operator × Formula)}
    (htail : ∀ t ∈ tail, t.2.WritesLine table) {text : String} {ps : List Piece}
    (h : Writes text ps) (x : Number) (order n : Nat) :
    (rollMathTail tail x order).Gives table n fun r _ =>
      Writes (text ++ Style.plain.writeMathTail false r.1) (ps ++ tailLine tail) := by
  induction tail generalizing text ps x order n with
  | nil =>
    rw [rollMathTail, gives_pure, Style.writeMathTail, tailLine, String.append_empty,
      List.append_nil]
    exact h
  | cons t tail ih =>
    obtain ⟨op, f⟩ := t
    obtain ⟨hf, htail⟩ := List.forall_mem_cons.mp htail
    simp only [rollMathTail, gives_bind, gives_pure]
    refine (hf n).mono fun o k ho => (gives_trivial _).mono fun y k _ => ?_
    refine (ih htail (h.binary op ho) y (order + 1) k).mono fun r _ hr => ?_
    simpa only [Style.writeMathTail, write_place, tailLine, String.append_assoc, List.append_assoc,
      List.cons_append] using hr

theorem Formula.Arithmetic.writesLine (h : f.Arithmetic) : f.WritesLine table := by
  intro n
  induction h generalizing n with
  | @number i hi =>
    have hroll : (int i).roll = Pure.pure (.number (.int i)) := rfl
    rw [hroll, gives_pure, Outcome.number, write_bare]
    exact writes_integerPieces hi
  | @chain head f op tail _ _ _ _ ihhead ihf ihtail =>
    have hoperands : ∀ t ∈ (op, f) :: tail, t.2.WritesLine table :=
      List.forall_mem_cons.mpr ⟨ihf, ihtail⟩
    simp only [bare, roll, Shape.roll, gives_bind, gives_pure]
    refine (ihhead n).mono fun o k ho => ?_
    refine (gives_writes_tailLine hoperands ho o.value 1 k).mono fun r _ hr => ?_
    rw [Outcome.relabel, write_bare, Style.writeBody]
    exact hr

end Writing

/-- Before the value of arithmetic stand the numbers and operators of its formula. They are a formula
again, which comes to that value from any source if no part of the first one needs parentheses. -/
theorem parse_rendered {text : String} {f : Formula} {table : Table} {n m : Nat} {o : Outcome}
    (hparse : Formula.parse text = .ok f) (hpieces : ∀ p ∈ pieces text, p.1.isArithmetic = true)
    (hroll : f.roll table n = (.ok o, m)) :
    ∃ line g, o.render .plain = line ++ " = " ++ o.value.text ∧ pieces line = f.line ∧
      Formula.parse line = .ok g ∧ (f.unenclosed = true →
        ∀ table' n', g.result table' n' = (.ok o.value, n')) := by
  have harithmetic := arithmetic_of_parse hparse hpieces
  have hspells := harithmetic.writesLine n o m hroll [] [] (by simp) .nil
  rw [List.append_nil, List.append_nil] at hspells
  obtain ⟨phrase, -, hderives⟩ := harithmetic.stands
  have hline := hderives.parse hspells
  refine ⟨_, phrase.formula, rfl, hspells.map_piece_scan, hline, fun hf table' n' => ?_⟩
  obtain ⟨phrase', -, hderives', hmeans⟩ := harithmetic.denotes hf
  have hsame : phrase.formula = phrase'.formula :=
    Except.ok.inj (hline.symm.trans (hderives'.parse hspells))
  rw [hsame, hmeans.result]
  exact harithmetic.steady_result.run_eq (map_ok hroll Outcome.value) table' n'

/-- Parentheses that are not needed, and the minus sign of a power: the line is
`1 - 2 * 3 + -1 * 4 ** 2`. -/
theorem parse_rendered_negative : ∃ f o m, Formula.parse "(1 - 2 * 3) + -4 ** 2" = .ok f ∧
    f.roll (.ofSamples fun _ => 0.5) 0 = (.ok o, m) ∧ ∃ line g,
      o.render .plain = line ++ " = " ++ o.value.text ∧ pieces line = f.line ∧
        Formula.parse line = .ok g ∧ ∀ table n, g.result table n = (.ok o.value, n) := by
  have hread : (Formula.parse "(1 - 2 * 3) + -4 ** 2").toOption.any (fun f => f.unenclosed &&
      (f.roll (.ofSamples fun _ => 0.5) 0).1.toOption.any fun _ => true) = true := by
    decide +kernel
  have hpieces : ∀ p ∈ pieces "(1 - 2 * 3) + -4 ** 2", p.1.isArithmetic = true := by
    decide +kernel
  obtain ⟨f, hparse, hf⟩ := exists_of_toOption_any hread
  obtain ⟨hunenclosed, hok⟩ := Bool.and_eq_true_iff.mp hf
  obtain ⟨o, m, hroll, -⟩ := exists_of_any hok
  obtain ⟨line, g, hrender, hsame, hline, hresult⟩ := parse_rendered hparse hpieces hroll
  exact ⟨f, o, m, hparse, hroll, line, g, hrender, hsame, hline, hresult hunenclosed⟩

/-- A sum is written without its parentheses, and only its last number is a factor then. -/
theorem parse_rendered_enclosed : ∃ f o m g k,
    Formula.parse "(1 + 2) * 3" = .ok f ∧
    (∀ p ∈ pieces "(1 + 2) * 3", p.1.isArithmetic = true) ∧
    f.roll (.ofSamples fun _ => 0.5) 0 = (.ok o, m) ∧ o.value = .int 9 ∧
    o.render .plain = "1 + 2 * 3" ++ " = " ++ o.value.text ∧
    Formula.parse "1 + 2 * 3" = .ok g ∧
    g.result (.ofSamples fun _ => 0.5) 0 = (.ok (.int 7), k) := by
  have hread : (Formula.parse "(1 + 2) * 3").toOption.any (fun f =>
      (f.roll (.ofSamples fun _ => 0.5) 0).1.toOption.any fun o =>
        (o.value.isInt && o.value.toInt64 == 9) &&
          o.render .plain == "1 + 2 * 3" ++ " = " ++ o.value.text) = true := by
    decide +kernel
  have hline : (Formula.parse "1 + 2 * 3").toOption.any (fun g =>
      (g.result (.ofSamples fun _ => 0.5) 0).1.toOption.any fun x =>
        x.isInt && x.toInt64 == 7) = true := by
    decide +kernel
  obtain ⟨f, hparse, hf⟩ := exists_of_toOption_any hread
  obtain ⟨o, m, hroll, ho⟩ := exists_of_any hf
  obtain ⟨hvalue, hrender⟩ := Bool.and_eq_true_iff.mp ho
  obtain ⟨g, hg, hresult⟩ := exists_of_toOption_any hline
  obtain ⟨x, k, hx, hseven⟩ := exists_of_any hresult
  rw [Number.eq_int_of_toInt64 hseven] at hx
  exact ⟨f, o, m, g, k, hparse, by decide +kernel, hroll, Number.eq_int_of_toInt64 hvalue,
    eq_of_beq hrender, hg, hx⟩

end DiceNotation

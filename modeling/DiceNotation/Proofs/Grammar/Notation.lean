import DiceNotation.Proofs.Grammar.Reading

/-! The grammar of the notation, over tokens without their places, with what each construct is read
as. It looks at nothing outside of a construct; only a condition may not come right after an
addition that would take it for its own. -/

namespace DiceNotation

open DiceNotation.Parser
open Token (Kind Piece)

section Slots

variable {host : Host} {k : Kind}

theorem isOpen_counted {make : Formula → Modifier Formula}
    (h : slot? host k = some (.counted make)) (f : Formula) :
    (Addition.modifier (make f)).isOpen = false ∧ (Addition.modifier (make f)).isCondition = false := by
  cases host <;> cases k <;> cases h <;> exact ⟨rfl, rfl⟩

theorem isOpen_optional {make : Option (Target Formula) → Modifier Formula}
    (h : slot? host k = some (.optional make)) (t : Option (Target Formula)) :
    (Addition.modifier (make t)).isOpen = t.isNone ∧
      (Addition.modifier (make t)).isCondition = false := by
  cases host <;> cases k <;> cases h <;> cases t <;> exact ⟨rfl, rfl⟩

theorem isOpen_required {make : Target Formula → Modifier Formula}
    (h : slot? host k = some (.required make)) (t : Target Formula) :
    (Addition.modifier (make t)).isOpen = false ∧ (Addition.modifier (make t)).isCondition = false := by
  cases host <;> cases k <;> cases h <;> exact ⟨rfl, rfl⟩

end Slots

/-- What pieces are read as, by the parser of each name. A product and a sum are chains that may
still grow; additions may come after an open one. -/
inductive Construct where
  | parens (f : Formula)
  | value (f : Formula)
  | count (default f : Formula)
  | signedValue (f : Formula)
  | comparison (t : Target Formula)
  | target (t : Target Formula)
  | condition (t : Option (Target Formula))
  | filter (t : Option (Target Formula))
  | addition (host : Host) (x : Addition)
  | additions (host : Host) (afterOpen : Bool) (xs : List Addition)
  | faces (s : Faces Formula)
  | members (fs : List Formula)
  | unlabeled (f : Formula)
  | term (f : Formula)
  | signed (f : Formula)
  | product (head : Formula) (tail : List (Operator × Formula))
  | sum (head : Formula) (tail : List (Sign × Formula))

/-- The labels of the pieces go to a formula one by one. -/
def Parser.labeled (f : Formula) (texts : List (List Char)) : Formula :=
  texts.foldl (fun f text => addLabel f (labelText text)) f

inductive Grammar : Construct → List Piece → Prop
  | parens {head : Formula} {tail : List (Sign × Formula)} {ps : List Piece} {l r : List Char}
      (h : Grammar (.sum head tail) ps) :
      Grammar (.parens (sumOf head tail)) ((.leftParen, l) :: ps ++ [(.rightParen, r)])
  | integer {text : List Char} {i : Int64} (h : integer? text = some i) :
      Grammar (.value (.int i)) [(.integer, text)]
  | decimal (text : List Char) :
      Grammar (.value (.number (.float (decimal text)))) [(.decimal, text)]
  | enclosed {f : Formula} {ps : List Piece} (h : Grammar (.parens f) ps) : Grammar (.value f) ps
  | default (f : Formula) : Grammar (.count f f) []
  | count {f default : Formula} {ps : List Piece} (h : Grammar (.value f) ps) :
      Grammar (.count default f) ps
  | unsignedValue {f : Formula} {ps : List Piece} (h : Grammar (.value f) ps) :
      Grammar (.signedValue f) ps
  | negate {f : Formula} {ps : List Piece} {text : List Char} (h : Grammar (.signedValue f) ps) :
      Grammar (.signedValue (negate f)) ((.minus, text) :: ps)
  | comparison {k : Kind} {relation : Relation} {f : Formula} {ps : List Piece} {text : List Char}
      (hk : relation? k = some relation) (h : Grammar (.signedValue f) ps) :
      Grammar (.comparison ⟨relation, f⟩) ((k, text) :: ps)
  | equality {f : Formula} {ps : List Piece} (h : Grammar (.signedValue f) ps) :
      Grammar (.target ⟨.equal, f⟩) ps
  | compared {t : Target Formula} {ps : List Piece} (h : Grammar (.comparison t) ps) :
      Grammar (.target t) ps
  | unconditional : Grammar (.condition none) []
  | valued {f : Formula} {ps : List Piece} (h : Grammar (.value f) ps) :
      Grammar (.condition (some ⟨.equal, f⟩)) ps
  | conditional {t : Target Formula} {ps : List Piece} (h : Grammar (.comparison t) ps) :
      Grammar (.condition (some t)) ps
  | unfiltered : Grammar (.filter none) []
  | filtered {t : Target Formula} {ps : List Piece} (h : Grammar (.comparison t) ps) :
      Grammar (.filter (some t)) ps
  | success {host : Host} {t : Target Formula} {ps : List Piece} (h : Grammar (.comparison t) ps) :
      Grammar (.addition host (.modifier (.success t))) ps
  | counted {host : Host} {k : Kind} {make : Formula → Modifier Formula} {f : Formula}
      {ps : List Piece} {text : List Char} (hk : slot? host k = some (.counted make))
      (h : Grammar (.count (.int 1) f) ps) :
      Grammar (.addition host (.modifier (make f))) ((k, text) :: ps)
  | optional {host : Host} {k : Kind} {make : Option (Target Formula) → Modifier Formula}
      {t : Option (Target Formula)} {ps : List Piece} {text : List Char}
      (hk : slot? host k = some (.optional make)) (h : Grammar (.condition t) ps) :
      Grammar (.addition host (.modifier (make t))) ((k, text) :: ps)
  | required {host : Host} {k : Kind} {make : Target Formula → Modifier Formula}
      {t : Target Formula} {ps : List Piece} {text : List Char}
      (hk : slot? host k = some (.required make)) (h : Grammar (.target t) ps) :
      Grammar (.addition host (.modifier (make t))) ((k, text) :: ps)
  | sorting {host : Host} {k : Kind} {order : Sorting} {text : List Char}
      (hk : slot? host k = some (.sorting order)) :
      Grammar (.addition host (.sorting order)) [(k, text)]
  | matching {host : Host} {k : Kind} {counted : Bool} {f : Formula} {t : Option (Target Formula)}
      {ps qs : List Piece} {text : List Char} (hk : slot? host k = some (.matching counted))
      (hcount : Grammar (.count (.int 2) f) ps) (hfilter : Grammar (.filter t) qs) :
      Grammar (.addition host (.matching ⟨f, counted, t⟩)) ((k, text) :: ps ++ qs)
  | nothing {host : Host} {afterOpen : Bool} : Grammar (.additions host afterOpen []) []
  | more {host : Host} {afterOpen : Bool} {x : Addition} {xs : List Addition} {ps qs : List Piece}
      (hx : (afterOpen && x.isCondition) = false) (h : Grammar (.addition host x) ps)
      (hxs : Grammar (.additions host x.isOpen xs) qs) :
      Grammar (.additions host afterOpen (x :: xs)) (ps ++ qs)
  | sides {f : Formula} {ps : List Piece} (h : Grammar (.value f) ps) :
      Grammar (.faces (.sides f)) ps
  | percent (text : List Char) : Grammar (.faces (.sides (.int 100))) [(.percent, text)]
  | fate (text : List Char) : Grammar (.faces .fate) [(.fate, text)]
  | alone : Grammar (.members []) []
  | member {head : Formula} {tail : List (Sign × Formula)} {fs : List Formula} {ps qs : List Piece}
      {text : List Char} (h : Grammar (.sum head tail) ps) (hfs : Grammar (.members fs) qs) :
      Grammar (.members (sumOf head tail :: fs)) ((.comma, text) :: ps ++ qs)
  | plain {f : Formula} {ps : List Piece} (h : Grammar (.value f) ps) : Grammar (.unlabeled f) ps
  | dice {f : Formula} {s : Faces Formula} {xs : List Addition} {ps qs rs : List Piece}
      {text : List Char} (hcount : Grammar (.count (.int 1) f) ps) (hfaces : Grammar (.faces s) qs)
      (hxs : Grammar (.additions .die false xs) rs) :
      Grammar (.unlabeled (.die (xs.foldl Die.add (.plain f s)))) (ps ++ (.dice, text) :: qs ++ rs)
  | group {head : Formula} {tail : List (Sign × Formula)} {fs : List Formula} {xs : List Addition}
      {ps qs rs : List Piece} {l r : List Char} (h : Grammar (.sum head tail) ps)
      (hfs : Grammar (.members fs) qs) (hxs : Grammar (.additions .group false xs) rs) :
      Grammar (.unlabeled (.bare (.group (sumOf head tail) fs (xs.flatMap Addition.modifiers))))
        ((.leftBrace, l) :: ps ++ qs ++ (.rightBrace, r) :: rs)
  | inline {head : Formula} {tail : List (Sign × Formula)} {ps : List Piece} {l r : List Char}
      (h : Grammar (.sum head tail) ps) :
      Grammar (.unlabeled (.bare (.inline (sumOf head tail))))
        ((.inlineOpen, l) :: ps ++ [(.inlineClose, r)])
  | function {k : Kind} {f : NumericFunction} {g : Formula} {ps : List Piece} {text : List Char}
      (hk : function? k = some f) (h : Grammar (.parens g) ps) :
      Grammar (.unlabeled (.bare (.function f g))) ((k, text) :: ps)
  | replacement {g : Formula} {ps : List Piece} {text : List Char} (h : Grammar (.parens g) ps) :
      Grammar (.unlabeled (.bare (.replacement (String.ofList (text.drop 1)) g)))
        ((.replacement, text) :: ps)
  | labels {f : Formula} {ps : List Piece} (h : Grammar (.unlabeled f) ps)
      (texts : List (List Char)) :
      Grammar (.term (labeled f texts)) (ps ++ texts.map fun text => (.label, text))
  | unsigned {f : Formula} {ps : List Piece} (h : Grammar (.term f) ps) : Grammar (.signed f) ps
  | power {base f : Formula} {ps qs : List Piece} {text : List Char}
      (hbase : Grammar (.term base) ps) (h : Grammar (.signed f) qs) :
      Grammar (.signed (.bare (.arithmetic base [(.pow, f)]))) (ps ++ (.starStar, text) :: qs)
  | minus {f : Formula} {ps : List Piece} {text : List Char} (h : Grammar (.signed f) ps) :
      Grammar (.signed (opposite f)) ((.minus, text) :: ps)
  | plus {f : Formula} {ps : List Piece} {text : List Char} (h : Grammar (.signed f) ps) :
      Grammar (.signed f) ((.plus, text) :: ps)
  | factor {f : Formula} {ps : List Piece} (h : Grammar (.signed f) ps) : Grammar (.product f []) ps
  | times {head f : Formula} {tail : List (Operator × Formula)} {ps qs : List Piece} {k : Kind}
      {op : Operator} {text : List Char} (hk : multiplier? k = some op)
      (hleft : Grammar (.product head tail) ps) (hright : Grammar (.signed f) qs) :
      Grammar (.product head (tail ++ [(op, f)])) (ps ++ (k, text) :: qs)
  | summand {head : Formula} {tail : List (Operator × Formula)} {ps : List Piece}
      (h : Grammar (.product head tail) ps) : Grammar (.sum (productOf head tail) []) ps
  | added {head head' : Formula} {tail : List (Sign × Formula)}
      {tail' : List (Operator × Formula)} {ps qs : List Piece} {k : Kind} {op : Sign}
      {text : List Char} (hk : sign? k = some op) (hleft : Grammar (.sum head tail) ps)
      (hright : Grammar (.product head' tail') qs) :
      Grammar (.sum head (tail ++ [(op, productOf head' tail')])) (ps ++ (k, text) :: qs)

/-- A term needs no label. -/
theorem Grammar.unlabeled {f : Formula} {ps : List Piece} (h : Grammar (.unlabeled f) ps) :
    Grammar (.term f) ps := by
  have hterm := h.labels []
  rwa [List.map_nil, List.append_nil] at hterm

end DiceNotation

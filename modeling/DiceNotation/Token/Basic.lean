/-!
The tokens of the notation. Most kinds have one spelling; numbers, names and labels have many, and
the kind `error` is for what no other kind spells.
-/

namespace DiceNotation

namespace Token

inductive Kind where
  | integer
  | decimal
  | dice
  | fate
  | leftParen
  | rightParen
  | leftBrace
  | rightBrace
  | comma
  | inlineOpen
  | inlineClose
  | plus
  | minus
  | star
  | starStar
  | slash
  | percent
  | equal
  | greater
  | greaterEqual
  | less
  | lessEqual
  | keep
  | keepHighest
  | keepLowest
  | dropHighest
  | dropLowest
  | explode
  | compound
  | penetrate
  | reroll
  | rerollOnce
  | failure
  | critSuccess
  | critFailure
  | sort
  | sortAscending
  | sortDescending
  | same
  | sameCount
  | floor
  | ceil
  | round
  | abs
  | replacement
  | label
  | error
  deriving DecidableEq

namespace Kind

def spellings : List (Kind × String) := [
  (.dice, "d"), (.fate, "F"), (.leftParen, "("), (.rightParen, ")"), (.leftBrace, "\x7b"),
  (.rightBrace, "\x7d"), (.comma, ","), (.inlineOpen, "[["), (.inlineClose, "]]"), (.plus, "+"),
  (.minus, "-"), (.star, "*"), (.starStar, "**"), (.slash, "/"), (.percent, "%"), (.equal, "="),
  (.greater, ">"), (.greaterEqual, ">="), (.less, "<"), (.lessEqual, "<="), (.keep, "k"),
  (.keepHighest, "kh"), (.keepLowest, "kl"), (.dropHighest, "dh"), (.dropLowest, "dl"),
  (.explode, "!"), (.compound, "!!"), (.penetrate, "!p"), (.reroll, "r"), (.rerollOnce, "ro"),
  (.failure, "f"), (.critSuccess, "cs"), (.critFailure, "cf"), (.sort, "s"),
  (.sortAscending, "sa"), (.sortDescending, "sd"), (.same, "m"), (.sameCount, "mt"),
  (.floor, "floor"), (.ceil, "ceil"), (.round, "round"), (.abs, "abs")]

def spelling? (k : Kind) : Option String :=
  spellings.lookup k

/-- How an error names the kind. -/
def name (k : Kind) : String :=
  match k with
  | .integer => "<integer>"
  | .decimal => "<decimal>"
  | .replacement => "<replacement>"
  | .label => "<label>"
  | .error => "<error>"
  | k => "'" ++ k.spelling?.getD "" ++ "'"

def comparators : List Kind := [.equal, .greater, .greaterEqual, .less, .lessEqual]

def isComparator (k : Kind) : Bool :=
  comparators.contains k

end Kind

end Token

/-- A token, with the bytes of the text that it covers. -/
structure Token where
  kind : Token.Kind
  start : Nat
  stop : Nat
  text : List Char

end DiceNotation

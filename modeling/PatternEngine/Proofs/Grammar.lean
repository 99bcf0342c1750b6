import Mathlib
import PatternEngine.Expr

/-!
# The grammar of patterns

A pattern is empty or a choice between branches. A branch is a row of terms, a
term is a primary with at most one quantifier, and a primary is a character, a
dot, a class or a group. The grammar relates the characters of a pattern to its
tree. It also counts the groups opened before and after, because a group is
numbered by its opening parenthesis.
-/

namespace PatternEngine

def Quantifier.symbol : Quantifier → Char
  | .zeroOrMore => '*'
  | .oneOrMore => '+'
  | .zeroOrOne => '?'

/-- A character that stands for itself in a pattern. -/
def isWordChar (c : Char) : Bool := c.isAlphanum || c == '_'

inductive Shape where
  | primary
  | term
  | branch
  | choice

/-- `Spells shape n cs e m`: with `n` groups opened before them the characters
`cs` spell the expression `e`, and `m` groups are opened then. -/
inductive Spells : Shape → Nat → List Char → Expr → Nat → Prop where
  | byte {n : Nat} {c : Char} (h : isWordChar c = true) :
    Spells .primary n [c] (.byte c.toUInt8) n
  | any {n : Nat} : Spells .primary n ['.'] .any n
  | oneOf {n : Nat} {body : List Char} {c : CharClass} (h : ']' ∉ body)
      (hc : CharClass.ofBody? (String.ofList body) = some c) :
    Spells .primary n ('[' :: (body ++ [']'])) (.oneOf c) n
  | group {n m : Nat} {cs : List Char} {e : Expr} (h : Spells .choice (n + 1) cs e m) :
    Spells .primary n ('(' :: (cs ++ [')'])) (.group (n + 1) e) m
  | plain {n m : Nat} {cs : List Char} {e : Expr} (h : Spells .primary n cs e m) :
    Spells .term n cs e m
  | quantified {n m : Nat} {cs : List Char} {e : Expr} (q : Quantifier)
      (h : Spells .primary n cs e m) :
    Spells .term n (cs ++ [q.symbol]) (.quantified q e) m
  | last {n m : Nat} {cs : List Char} {e : Expr} (h : Spells .term n cs e m) :
    Spells .branch n cs e m
  | cat {n m k : Nat} {cs ds : List Char} {e f : Expr} (he : Spells .term n cs e m)
      (hf : Spells .branch m ds f k) :
    Spells .branch n (cs ++ ds) (.cat e f) k
  | only {n m : Nat} {cs : List Char} {e : Expr} (h : Spells .branch n cs e m) :
    Spells .choice n cs e m
  | alt {n m k : Nat} {cs ds : List Char} {e f : Expr} (he : Spells .branch n cs e m)
      (hf : Spells .choice m ds f k) :
    Spells .choice n (cs ++ '|' :: ds) (.alt e f) k

abbrev Tree := Option Expr

/-- A source text spells a tree with some number of groups. -/
def Tree.Of (source : String) (groups : Nat) : Tree → Prop
  | none => source.toList = [] ∧ groups = 0
  | some e => Spells .choice 0 source.toList e groups

end PatternEngine

import PatternEngine.CharClass
import PatternEngine.Token

/-!
# Expressions

The tree of a pattern. Concatenations and alternations nest to the right: the
first part of a concatenation is a term and its second part is a term or a
concatenation, and likewise for branches. Groups are numbered from one in the
order of their opening parentheses.

Two properties of an expression decide what code it gets. A nullable expression
never fails. The width of an expression is the number of bytes it consumes when
every way to succeed consumes the same number.
-/

namespace PatternEngine

inductive Expr where
  | any
  | byte (b : UInt8)
  | oneOf (c : CharClass)
  | group (id : Nat) (body : Expr)
  | quantified (q : Quantifier) (body : Expr)
  | cat (first rest : Expr)
  | alt (first rest : Expr)
  deriving DecidableEq, Repr

namespace Expr

def nullable : Expr → Bool
  | .any | .byte _ | .oneOf _ => false
  | .group _ body => body.nullable
  | .quantified .oneOrMore body => body.nullable
  | .quantified _ _ => true
  | .cat first rest => first.nullable && rest.nullable
  | .alt first rest => first.nullable || rest.nullable

end Expr

def widthSum (a b : Option Nat) : Option Nat := do return (← a) + (← b)

def widthJoin (a b : Option Nat) : Option Nat := if a = b then a else none

namespace Expr

def width : Expr → Option Nat
  | .any | .byte _ | .oneOf _ => some 1
  | .group _ body => body.width
  | .quantified _ _ => none
  | .cat first rest => widthSum first.width rest.width
  | .alt first rest => widthJoin first.width rest.width

end Expr

end PatternEngine

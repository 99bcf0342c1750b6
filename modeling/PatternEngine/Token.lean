/-!
# Tokens of a pattern

A token keeps the text it was cut from and the byte offset where it starts. The
text of a character class leaves the brackets out, and the text of a
concatenation that no character spells is empty.
-/

namespace PatternEngine

inductive Quantifier where
  | zeroOrMore
  | oneOrMore
  | zeroOrOne
  deriving DecidableEq, Repr

inductive Operator where
  | alternate
  | concatenate
  | quantify (q : Quantifier)
  deriving DecidableEq, Repr

def Operator.ofByte? : UInt8 → Option Operator
  | 42 => some (.quantify .zeroOrMore)
  | 43 => some (.quantify .oneOrMore)
  | 63 => some (.quantify .zeroOrOne)
  | 124 => some .alternate
  | _ => none

def Operator.isQuantifier : Operator → Bool | .quantify _ => true | _ => false

inductive TokenKind where
  | literal
  | anyByte
  | charClass
  | operator (op : Operator)
  | groupOpen
  | groupClose
  | invalid
  deriving DecidableEq, Repr

def TokenKind.label : TokenKind → String
  | .literal => "Character(Single)"
  | .anyByte => "Character(Any)"
  | .charClass => "CharacterRange"
  | .operator .alternate => "Operator(Alternate)"
  | .operator .concatenate => "Operator(Concatenate)"
  | .operator (.quantify .zeroOrMore) => "Operator(ZeroOrMore)"
  | .operator (.quantify .oneOrMore) => "Operator(OneOrMore)"
  | .operator (.quantify .zeroOrOne) => "Operator(ZeroOrOne)"
  | .groupOpen => "GroupBegin"
  | .groupClose => "GroupEnd"
  | .invalid => "Invalid"

structure Token where
  text : String
  offset : Nat
  kind : TokenKind
  deriving DecidableEq, Repr

namespace Token

def concatenation (offset : Nat) : Token := ⟨"", offset, .operator .concatenate⟩

/-- The byte offset just past a token, closing bracket included. -/
def stop (t : Token) : Nat :=
  match t.kind with
  | .charClass => t.offset + t.text.utf8ByteSize + 2
  | _ => t.offset + t.text.utf8ByteSize

def displayText (t : Token) : String :=
  match t.kind with
  | .charClass => "[" ++ t.text ++ "]"
  | .operator .concatenate => if t.text.isEmpty then "<concat>" else t.text
  | _ => t.text

/-- Whether an operand ends with this token, so that an operand may follow it
without an operator between them. Quantifiers take part in the operand before
them and are left out. -/
def endsOperand (t : Token) : Bool :=
  match t.kind with
  | .literal | .anyByte | .charClass | .groupClose => true
  | _ => false

def startsOperand (t : Token) : Bool :=
  match t.kind with
  | .literal | .anyByte | .charClass | .groupOpen => true
  | _ => false

def isQuantifier (t : Token) : Bool :=
  match t.kind with
  | .operator op => op.isQuantifier
  | _ => false

end Token

end PatternEngine

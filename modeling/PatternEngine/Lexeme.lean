import PatternEngine.Error
import PatternEngine.Token

/-!
# Cutting a pattern into tokens

A pattern is cut from left to right. Most characters are tokens by themselves;
a character class runs from an opening bracket to the first closing bracket,
whatever stands between them. Concatenation is not written in a pattern, so a
second pass puts a concatenation in front of every operand that follows another
one directly.
-/

namespace PatternEngine

inductive Symbol where
  | single (kind : TokenKind)
  | classOpen
  deriving DecidableEq, Repr

def Symbol.ofChar? (c : Char) : Option Symbol :=
  match c with
  | '|' => some (.single (.operator .alternate))
  | '*' => some (.single (.operator (.quantify .zeroOrMore)))
  | '+' => some (.single (.operator (.quantify .oneOrMore)))
  | '?' => some (.single (.operator (.quantify .zeroOrOne)))
  | '(' => some (.single .groupOpen)
  | ')' => some (.single .groupClose)
  | '.' => some (.single .anyByte)
  | '[' => some .classOpen
  | c => if c.isAlphanum || c == '_' then some (.single .literal) else none

/-- The first place where a pattern cannot be cut. -/
inductive LexFault where
  | unclosedClass (start : Nat)
  | unexpectedCharacter (index : Nat) (found : Char)
  deriving DecidableEq, Repr

def LexFault.inPattern (pattern : String) : LexFault → LexError
  | .unclosedClass start => .unclosedClass pattern start
  | .unexpectedCharacter index found => .unexpectedCharacter pattern index found

theorem length_dropWhile_le {α : Type} (p : α → Bool) (l : List α) :
    (l.dropWhile p).length ≤ l.length :=
  (List.dropWhile_sublist p).length_le

/-- Adds the tokens of the remaining characters, the first of which stands at a
byte offset of the pattern. -/
def lexemesFrom (offset : Nat) (tokens : Array Token) :
    List Char → Except LexFault (Array Token)
  | [] => .ok tokens
  | c :: rest =>
    match Symbol.ofChar? c with
    | none => .error (.unexpectedCharacter offset c)
    | some (.single kind) =>
      lexemesFrom (offset + c.utf8Size) (tokens.push ⟨String.singleton c, offset, kind⟩) rest
    | some .classOpen =>
      match _h : rest.dropWhile (· != ']') with
      | [] => .error (.unclosedClass offset)
      | _ :: after =>
        let t : Token := ⟨String.ofList (rest.takeWhile (· != ']')), offset, .charClass⟩
        lexemesFrom t.stop (tokens.push t) after
termination_by cs => cs.length
decreasing_by
  · simp
  · have := length_dropWhile_le (· != ']') rest
    rw [_h] at this
    simp at this ⊢
    omega

def lexemes (pattern : String) : Except LexFault (Array Token) :=
  lexemesFrom 0 #[] pattern.toList

/-- Adds tokens with every concatenation made explicit. Whether an operand is
complete before the first of them is `complete`. -/
def joinFrom (complete : Bool) (joined : Array Token) : List Token → Array Token
  | [] => joined
  | t :: rest =>
    let joined :=
      if complete && t.startsOperand then joined.push (.concatenation t.offset) else joined
    joinFrom (t.endsOperand || (complete && t.isQuantifier)) (joined.push t) rest

def lex (pattern : String) : Except LexError (List Token) :=
  match lexemes pattern with
  | .ok tokens => .ok (joinFrom false #[] tokens.toList).toList
  | .error fault => .error (fault.inPattern pattern)

end PatternEngine

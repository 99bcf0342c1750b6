import PatternEngine.Error
import PatternEngine.Expr

/-!
# From tokens to an expression

Tokens are taken one at a time. The state holds, for the innermost open group
and for every group around it, the finished branches and the finished terms of
the branch at hand. A term that is complete but may still take a quantifier is
kept apart, so a level never closes without a last term.

A token that cannot stand where it does ends the parse. What was taken before
it is kept with the error, since a size limit may already fail there.
-/

namespace PatternEngine

/-- One level of parentheses: finished branches and the finished terms of the
branch at hand, both with the latest in front. -/
structure Level where
  branches : List Expr := []
  terms : List Expr := []

namespace Level

def branch (level : Level) (last : Expr) : Expr :=
  level.terms.foldl (fun rest term => .cat term rest) last

def close (level : Level) (last : Expr) : Expr :=
  level.branches.foldl (fun rest branch => .alt branch rest) (level.branch last)

end Level

structure OpenGroup where
  id : Nat
  offset : Nat
  outer : Level

inductive Phase where
  | operand
  | term (last : Expr) (quantified : Bool)

/-- The state of a parse: groups opened so far, groups still open with the
innermost in front, and the level and phase inside them. -/
structure ParseState where
  groups : Nat := 0
  enclosing : List OpenGroup := []
  level : Level := {}
  phase : Phase := .operand

/-- Why a parse ended. An unclosed group is found only when its alternation is
complete, and then `levelClosed` holds. -/
structure Refusal where
  error : SyntaxError
  levelClosed : Bool := false

def Refusal.invalid (t : Token) : Refusal := ⟨.invalidToken t.offset t.displayText, false⟩

def Refusal.misplaced (t : Token) : Refusal := ⟨.invalidOperator t.offset t.displayText, false⟩

def Token.leaf? (t : Token) : Option Expr :=
  match t.kind with
  | .literal => t.text.toUTF8.data[0]?.map .byte
  | .anyByte => some .any
  | .charClass => (CharClass.ofBody? t.text).map .oneOf
  | _ => none

namespace ParseState

def takeOperand (s : ParseState) (t : Token) : Except Refusal ParseState :=
  match t.kind with
  | .literal | .anyByte | .charClass =>
    match t.leaf? with
    | some leaf => .ok { s with phase := .term leaf false }
    | none => .error (.invalid t)
  | .groupOpen =>
    if s.groups < maxGroups then
      .ok { groups := s.groups + 1
            enclosing := ⟨s.groups + 1, t.offset, s.level⟩ :: s.enclosing
            level := {}
            phase := .operand }
    else .error ⟨.tooManyGroups, false⟩
  | .groupClose => .error ⟨.unexpectedEnd t.offset, false⟩
  | .operator _ => .error (.misplaced t)
  | .invalid => .error (.invalid t)

def refuse (s : ParseState) (t : Token) (remaining : Nat) : Refusal :=
  match s.enclosing with
  | innermost :: _ => ⟨.mismatchedParentheses innermost.offset, true⟩
  | [] =>
    match t.kind with
    | .groupClose => ⟨.mismatchedParentheses t.offset, false⟩
    | _ => ⟨.tokensLeftOver t.offset remaining, false⟩

def takeAfterTerm (s : ParseState) (last : Expr) (quantified : Bool) (t : Token)
    (remaining : Nat) : Except Refusal ParseState :=
  match t.kind with
  | .operator .concatenate =>
    .ok { s with level := { s.level with terms := last :: s.level.terms }, phase := .operand }
  | .operator .alternate =>
    .ok { s with
      level := { branches := s.level.branch last :: s.level.branches, terms := [] }
      phase := .operand }
  | .operator (.quantify q) =>
    if quantified then .error (.misplaced t)
    else .ok { s with phase := .term (.quantified q last) true }
  | .groupClose =>
    match s.enclosing with
    | innermost :: outer =>
      .ok { s with
        enclosing := outer
        level := innermost.outer
        phase := .term (.group innermost.id (s.level.close last)) false }
    | [] => .error (s.refuse t remaining)
  | _ => .error (s.refuse t remaining)

/-- Takes a token; `remaining` counts it and the tokens after it. -/
def take (s : ParseState) (t : Token) (remaining : Nat) : Except Refusal ParseState :=
  match s.phase with
  | .operand => s.takeOperand t
  | .term last quantified => s.takeAfterTerm last quantified t remaining

def finish (s : ParseState) (stop : Nat) : Except Refusal Expr :=
  match s.phase with
  | .operand => .error ⟨.unexpectedEnd stop, false⟩
  | .term last _ =>
    match s.enclosing with
    | innermost :: _ => .error ⟨.mismatchedParentheses innermost.offset, true⟩
    | [] => .ok (s.level.close last)

end ParseState

structure Parsed where
  expr : Expr
  groups : Nat

structure Halt where
  state : ParseState
  refusal : Refusal

def parseFrom (stop : Nat) (s : ParseState) : Nat → List Token → Except Halt Parsed
  | _, [] =>
    match s.finish stop with
    | .ok expr => .ok ⟨expr, s.groups⟩
    | .error refusal => .error ⟨s, refusal⟩
  | remaining, t :: rest =>
    match s.take t remaining with
    | .ok next => parseFrom stop next (remaining - 1) rest
    | .error refusal => .error ⟨s, refusal⟩

def parse (tokens : List Token) : Except Halt Parsed :=
  parseFrom (tokens.getLast?.elim 0 Token.stop) {} tokens.length tokens

end PatternEngine

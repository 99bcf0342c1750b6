import PatternEngine.Numeral

/-!
# Causes of failure

Every way in which a pattern can fail to become a program is a constructor.
The wording of a failure is a function of its cause, and so is the stable
number that callers may carry across a boundary of their own.
-/

namespace PatternEngine

/-- Group ids are one byte wide and id 0 stands for the whole match. -/
def maxGroups : Nat := 255

inductive LexError where
  | unclosedClass (pattern : String) (start : Nat)
  | unexpectedCharacter (pattern : String) (index : Nat) (found : Char)
  deriving DecidableEq, Repr

inductive DecodeError where
  | unknownOpCode (byte : UInt8) (position : Nat)
  | truncated (position : Nat)
  deriving DecidableEq, Repr

inductive SyntaxError where
  | mismatchedParentheses (offset : Nat)
  | unexpectedEnd (offset : Nat)
  | tokensLeftOver (offset remaining : Nat)
  | invalidToken (offset : Nat) (text : String)
  | invalidOperator (offset : Nat) (text : String)
  | tooManyGroups
  deriving DecidableEq, Repr

inductive Resource where
  | bytecode
  | jumpDistance
  | rewindDistance
  deriving DecidableEq, Repr

inductive CompileError where
  | patternTooLong (length limit : Nat)
  | lex (cause : LexError)
  | malformed (cause : SyntaxError)
  | resourceLimit (resource : Resource) (requested limit : Nat)
  | decode (cause : DecodeError)
  | unresolvedJump (position : Nat)
  deriving DecidableEq, Repr

namespace LexError

def message : LexError → String
  | .unclosedClass pattern start =>
    s!"character range starting at {start} in pattern '{pattern}' is missing its closing ']'"
  | .unexpectedCharacter pattern index found =>
    s!"unexpected character '{found}' at {index} in pattern '{pattern}'"

end LexError

namespace DecodeError

def message : DecodeError → String
  | .unknownOpCode byte position =>
    "unknown opcode 0x" ++ Numeral.hexByte byte ++ s!" at bytecode offset {position}"
  | .truncated position => s!"instruction at bytecode offset {position} is truncated"

end DecodeError

def limitMessage (resource : String) (requested limit : Nat) : String :=
  s!"{resource} limit exceeded: requested {requested}, limit {limit}"

namespace SyntaxError

def message : SyntaxError → String
  | .mismatchedParentheses offset => s!"mismatched parentheses at {offset}"
  | .unexpectedEnd offset => s!"expression ends unexpectedly at {offset}"
  | .tokensLeftOver offset remaining =>
    s!"{remaining} tokens left over after emission, starting at {offset}"
  | .invalidToken offset text => s!"invalid token '{text}' at {offset}"
  | .invalidOperator offset text => s!"operator '{text}' at {offset} has nothing to apply to"
  | .tooManyGroups => limitMessage "groups" (maxGroups + 1) maxGroups

end SyntaxError

namespace Resource

def name : Resource → String
  | .bytecode => "bytecode"
  | .jumpDistance => "jump distance"
  | .rewindDistance => "rewind distance"

end Resource

inductive ErrorCode where
  | unclosedCharacterRange
  | unexpectedCharacter
  | mismatchedParentheses
  | unexpectedEndOfExpression
  | unexpectedTokensAfterEmission
  | invalidToken
  | invalidOperator
  | unknownOpCode
  | resourceExhausted
  deriving DecidableEq, Repr

namespace ErrorCode

def toNat : ErrorCode → Nat
  | .unclosedCharacterRange => 1
  | .unexpectedCharacter => 2
  | .mismatchedParentheses => 3
  | .unexpectedEndOfExpression => 4
  | .unexpectedTokensAfterEmission => 5
  | .invalidToken => 6
  | .invalidOperator => 7
  | .unknownOpCode => 8
  | .resourceExhausted => 9

def name : ErrorCode → String
  | .unclosedCharacterRange => "UnclosedCharacterRange"
  | .unexpectedCharacter => "UnexpectedCharacter"
  | .mismatchedParentheses => "MismatchedParentheses"
  | .unexpectedEndOfExpression => "UnexpectedEndOfExpression"
  | .unexpectedTokensAfterEmission => "UnexpectedTokensAfterEmission"
  | .invalidToken => "InvalidToken"
  | .invalidOperator => "InvalidOperator"
  | .unknownOpCode => "UnknownOpCode"
  | .resourceExhausted => "ResourceExhausted"

end ErrorCode

namespace CompileError

def message : CompileError → String
  | .patternTooLong length limit =>
    s!"pattern length {length} exceeds the configured maximum of {limit}"
  | .lex cause => cause.message
  | .malformed cause => cause.message
  | .resourceLimit resource requested limit => limitMessage resource.name requested limit
  | .decode cause => cause.message
  | .unresolvedJump position =>
    s!"jump emitted at bytecode offset {position} was never resolved"

def code : CompileError → ErrorCode
  | .patternTooLong .. => .resourceExhausted
  | .lex (.unclosedClass ..) => .unclosedCharacterRange
  | .lex (.unexpectedCharacter ..) => .unexpectedCharacter
  | .malformed (.mismatchedParentheses ..) => .mismatchedParentheses
  | .malformed (.unexpectedEnd ..) => .unexpectedEndOfExpression
  | .malformed (.tokensLeftOver ..) => .unexpectedTokensAfterEmission
  | .malformed (.invalidToken ..) => .invalidToken
  | .malformed (.invalidOperator ..) => .invalidOperator
  | .malformed .tooManyGroups => .resourceExhausted
  | .resourceLimit .. => .resourceExhausted
  | .decode .. => .unknownOpCode
  | .unresolvedJump .. => .unknownOpCode

end CompileError

end PatternEngine

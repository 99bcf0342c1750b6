import PatternEngine.Lexeme
import PatternEngine.Listing
import PatternEngine.Machine
import PatternEngine.Options

/-!
# Compiled patterns

A compiled pattern keeps its source, its bytecode and the number of its groups.
It matches a subject when its program accepts some first part of the subject.
-/

namespace PatternEngine

structure Pattern where
  source : String
  bytecode : Array UInt8
  groups : Nat
  deriving DecidableEq, Repr

namespace Pattern

def isMatch (p : Pattern) (subject : String) : Bool := Machine.execute p.bytecode subject

def listing (p : Pattern) : Listing := disassemble p.bytecode

end Pattern

def compile (options : CompileOptions) (source : String) : Except CompileError Pattern :=
  if options.maxPatternLength < source.utf8ByteSize then
    .error (.patternTooLong source.utf8ByteSize options.maxPatternLength)
  else
    match lex source with
    | .error cause => .error (.lex cause)
    | .ok tokens =>
      match Program.ofTokens tokens options.maxProgramLength with
      | .error e => .error e
      | .ok program => .ok ⟨source, program.bytecode, program.groups⟩

end PatternEngine

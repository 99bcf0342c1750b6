import PatternEngine.Registry

/-!
# Log events

What is worth telling about a compilation, a run of the machine and a request
to a registry, in the order in which it happens. A log is a function of the
same data as the result it belongs to, and it changes no result.
-/

namespace PatternEngine

inductive LogLevel where
  | error
  | debug
  | trace
  deriving DecidableEq, Repr

def LogLevel.name : LogLevel → String
  | .error => "ERROR"
  | .debug => "DEBUG"
  | .trace => "TRACE"

structure Event where
  level : LogLevel
  message : String
  fields : List (String × String)
  deriving DecidableEq, Repr

/-! ### Compilation -/

def Token.event (index : Nat) (t : Token) : Event where
  level := .debug
  message := "token"
  fields := [("idx", toString index), ("offset", toString t.offset), ("kind", t.kind.label),
    ("text", t.displayText)]

def Program.event (p : Program) : Event where
  level := .debug
  message := "compiled program:\n" ++ (disassemble p.bytecode).text
  fields := [("bytes", toString p.bytecode.size), ("groups", toString p.groups)]

def lexFailure (cause : LexError) : Event :=
  ⟨.debug, "pattern failed to lex", [("error", cause.message)]⟩

def compileFailure (e : CompileError) : Event :=
  ⟨.debug, "pattern failed to compile", [("error", e.message), ("code", e.code.name)]⟩

/-- The events of a compilation. A pattern that is too long is refused in
silence. -/
def compileLog (options : CompileOptions) (source : String) : List Event :=
  if options.maxPatternLength < source.utf8ByteSize then []
  else
    match lex source with
    | .error cause => [lexFailure cause]
    | .ok tokens =>
      let traced := fun events => if options.debugTrace then events else []
      traced (tokens.mapIdx Token.event) ++
        match Program.ofTokens tokens options.maxProgramLength with
        | .error e => [compileFailure e]
        | .ok program => traced [program.event]

/-! ### Runs of the machine -/

namespace Machine

def cursorUnderflow : String := "cursor moved before the start of the input"

def Fault.event (pc : Nat) : Fault → Event
  | .undecodable cause =>
    ⟨.error, "bytecode is inconsistent; rejecting input",
      [("error", cause.message), ("pc", toString pc)]⟩
  | .unresolvedJump => ⟨.error, "unresolved jump in finished bytecode", [("pc", toString pc)]⟩
  | .jumpBeforeStart offset =>
    ⟨.error, "jump lands before the start of the program",
      [("pc", toString pc), ("offset", toString offset.toInt)]⟩
  | .stepBeforeStart => ⟨.error, cursorUnderflow, [("pc", toString pc)]⟩
  | .rewindBeforeStart offset =>
    ⟨.error, cursorUnderflow, [("pc", toString pc), ("offset", toString offset.toInt)]⟩

/-- The events of a run: the fault that ended it, if one did. -/
def Verdict.log : Verdict → List Event
  | .faulted pc cause => [cause.event pc]
  | _ => []

end Machine

/-! ### Requests -/

/-- The events of a request, before it is made. -/
def Registry.requestLog (r : Registry) (source : String) : List Event :=
  match r.store, r.stored? source with
  | none, _ => compileLog r.options.compile source
  | some _, some _ => [⟨.trace, "pattern cache hit", [("pattern", source)]⟩]
  | some _, none =>
    ⟨.trace, "pattern cache miss", [("pattern", source)]⟩ :: compileLog r.options.compile source

end PatternEngine

import PatternEngine.Assembly
import PatternEngine.JumpCheck
import PatternEngine.Room

/-!
# Programs

A program is the code of an expression followed by an accept and a fail, with a
jump to the fail between them and the code. Its pieces first claim room under
the limit, are then written as bytes, and the bytes are checked.
-/

namespace PatternEngine

def defaultProgramLength : Nat := 16777216

structure Program where
  bytecode : Array UInt8
  groups : Nat
  deriving DecidableEq, Repr

structure Layout where
  code : Code
  failAt : Nat

/-- The empty pattern accepts at once and never fails. -/
def Layout.empty : Layout := ⟨.plain .accept, 0⟩

def Layout.ofExpr (e : Expr) : Layout :=
  let body := e.openCode ++ (.piece .rejectUnlessFlag ++ .plain .accept)
  ⟨body ++ .plain .fail, body.size⟩

/-- Claims the room of a layout, writes it and checks it. -/
def Layout.assemble (limit : Nat) (layout : Layout) : Except CompileError (Array UInt8) :=
  match layout.code.claim limit 0 with
  | .error requested => .error (outOfRoom limit requested)
  | .ok _ => do
    let bytecode ← layout.code.rope.write layout.failAt #[]
    verify bytecode
    return bytecode

/-- The program of a token sequence, at most `maxLength` bytes long. -/
def Program.ofTokens (tokens : List Token) (maxLength : Nat) : Except CompileError Program :=
  let limit := min maxLength maxProgramLength
  match tokens with
  | [] => do return ⟨← Layout.empty.assemble limit, 0⟩
  | tokens =>
    match parse tokens with
    | .error halt => .error (halt.error limit)
    | .ok parsed => do return ⟨← (Layout.ofExpr parsed.expr).assemble limit, parsed.groups⟩

def emit (tokens : List Token) : Except CompileError (Array UInt8) :=
  (Program.ofTokens tokens defaultProgramLength).map Program.bytecode

end PatternEngine

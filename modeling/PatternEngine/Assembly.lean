import PatternEngine.Code
import PatternEngine.Encoding

/-!
# From code to bytes

Pieces become instructions once their position and the position of the final
rejection are known, and are written one after another. A distance that does
not fit into 32 bits is refused.
-/

namespace PatternEngine

/-- The largest program that a distance of 32 bits can still span. -/
def maxProgramLength : Nat := 2147483647

def displacement (distance : Int) : Except CompileError Int32 :=
  if -2147483648 ≤ distance ∧ distance ≤ 2147483647 then .ok (Int32.ofInt distance)
  else .error (.resourceLimit .jumpDistance distance.natAbs maxProgramLength)

/-- The instruction of a piece at a position of a program that fails at `failAt`. -/
def Piece.resolve (failAt position : Nat) : Piece → Except CompileError Instruction
  | .plain i => .ok i
  | .jumpIf true distance => do return .jumpEq (.offset (← displacement distance))
  | .jumpIf false distance => do return .jumpNeq (.offset (← displacement distance))
  | .rejectUnlessFlag => do
    return .jumpNeq (.offset (← displacement (failAt - (position + jumpWidth : Nat))))
  | .rewind count =>
    if count ≤ maxProgramLength then .ok (.jumpPos (Int32.ofInt (-count)))
    else .error (.resourceLimit .rewindDistance count maxProgramLength)

def Instruction.write (i : Instruction) (buffer : Array UInt8) :
    Except CompileError (Array UInt8) :=
  match i.encode buffer with
  | (written, .ok ()) => .ok written
  | (_, .error e) => .error e

def Rope.write (failAt : Nat) (buffer : Array UInt8) {n : Nat} :
    Rope n → Except CompileError (Array UInt8)
  | .nil => .ok buffer
  | .piece p =>
    match p.resolve failAt buffer.size with
    | .ok i => i.write buffer
    | .error e => .error e
  | .append first second =>
    match first.write failAt buffer with
    | .ok buffer => second.write failAt buffer
    | .error e => .error e
  | .block inner => inner.write failAt buffer

end PatternEngine

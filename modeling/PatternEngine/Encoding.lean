import PatternEngine.Error
import PatternEngine.Instruction

/-!
# Instructions as bytes

An instruction is written as its opcode followed by its operands; distances are
four bytes, most significant first. A conditional jump that has no distance yet
is refused, and by then its opcode is already in the buffer. Reading takes one
instruction at a position and says whether the opcode is unknown or operands
are missing.
-/

namespace PatternEngine

def bytesOfWord (w : Int32) : List UInt8 :=
  let n := w.toUInt32.toNat
  [UInt8.ofNat (n >>> 24), UInt8.ofNat (n >>> 16), UInt8.ofNat (n >>> 8), UInt8.ofNat n]

def wordOfBytes (a b c d : UInt8) : Int32 :=
  (UInt32.ofNat (a.toNat <<< 24 + b.toNat <<< 16 + c.toNat <<< 8 + d.toNat)).toInt32

namespace JumpTarget

def distance? : JumpTarget → Option Int32
  | .offset distance => some distance
  | .unresolved | .toFail => none

end JumpTarget

namespace Instruction

/-- The operand bytes, or nothing for a jump without a distance. -/
def operands? : Instruction → Option (List UInt8)
  | .testSingle byte => some [byte]
  | .testRange lo hi | .testNegatedRange lo hi => some [lo, hi]
  | .jumpEq target | .jumpNeq target => target.distance?.map bytesOfWord
  | .jumpPos distance => some (bytesOfWord distance)
  | .setFlag value => some [if value then 1 else 0]
  | .groupStart id | .groupEnd id => some [id]
  | .testAny | .testDigit | .testLowerCase | .testUpperCase | .incPosEq | .incPos | .decPos
  | .accept | .fail => some []

/-- Appends an instruction to a buffer. The buffer that comes back with a
refusal holds the opcode of the refused jump. -/
def encode (i : Instruction) (buffer : Array UInt8) : Array UInt8 × Except CompileError Unit :=
  let position := buffer.size
  let opened := buffer.push i.opcode.toByte
  match i.operands? with
  | some operands => (operands.foldl Array.push opened, .ok ())
  | none => (opened, .error (.unresolvedJump position))

end Instruction

namespace OpCode

def read? (operand : Nat → Option UInt8) : OpCode → Option Instruction
  | .testSingle => (operand 0).map .testSingle
  | .testRange => do return .testRange (← operand 0) (← operand 1)
  | .testNegatedRange => do return .testNegatedRange (← operand 0) (← operand 1)
  | .testAny => some .testAny
  | .testDigit => some .testDigit
  | .testLowerCase => some .testLowerCase
  | .testUpperCase => some .testUpperCase
  | .incPosEq => some .incPosEq
  | .incPos => some .incPos
  | .decPos => some .decPos
  | .jumpEq => word.map fun distance => .jumpEq (.offset distance)
  | .jumpNeq => word.map fun distance => .jumpNeq (.offset distance)
  | .jumpPos => word.map .jumpPos
  | .setFlag => (operand 0).map fun byte => .setFlag (byte != 0)
  | .groupStart => (operand 0).map .groupStart
  | .groupEnd => (operand 0).map .groupEnd
  | .accept => some .accept
  | .fail => some .fail
where
  word : Option Int32 := do
    return wordOfBytes (← operand 0) (← operand 1) (← operand 2) (← operand 3)

end OpCode

namespace Instruction

def decode (code : Array UInt8) (position : Nat) : Except DecodeError Instruction :=
  match code[position]? with
  | none => .error (.truncated position)
  | some byte =>
    match OpCode.ofByte? byte with
    | none => .error (.unknownOpCode byte position)
    | some op =>
      match op.read? fun k => code[position + 1 + k]? with
      | none => .error (.truncated position)
      | some i => .ok i

end Instruction

end PatternEngine

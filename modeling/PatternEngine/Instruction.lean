/-!
# Instructions of the matching machine

The machine has a cursor into the subject and one flag. Tests set the flag from
the byte at the cursor, jumps follow the flag, and a few instructions move the
cursor. An instruction is an opcode byte and operands of a width that the
opcode fixes, so the width of an instruction never depends on where it stands.
-/

namespace PatternEngine

inductive OpCode where
  | testSingle
  | testRange
  | testNegatedRange
  | testAny
  | testDigit
  | testLowerCase
  | testUpperCase
  | incPosEq
  | incPos
  | decPos
  | jumpEq
  | jumpNeq
  | jumpPos
  | setFlag
  | groupStart
  | groupEnd
  | accept
  | fail
  deriving DecidableEq, Repr

namespace OpCode

def toByte : OpCode → UInt8
  | .testSingle => 0x01
  | .testRange => 0x02
  | .testNegatedRange => 0x03
  | .testAny => 0x04
  | .testDigit => 0x05
  | .testLowerCase => 0x06
  | .testUpperCase => 0x07
  | .incPosEq => 0x08
  | .incPos => 0x09
  | .decPos => 0x0A
  | .jumpEq => 0x0B
  | .jumpNeq => 0x0C
  | .jumpPos => 0x0D
  | .setFlag => 0x0E
  | .groupStart => 0x0F
  | .groupEnd => 0x10
  | .accept => 0x11
  | .fail => 0x12

def ofByte? : UInt8 → Option OpCode
  | 0x01 => some .testSingle
  | 0x02 => some .testRange
  | 0x03 => some .testNegatedRange
  | 0x04 => some .testAny
  | 0x05 => some .testDigit
  | 0x06 => some .testLowerCase
  | 0x07 => some .testUpperCase
  | 0x08 => some .incPosEq
  | 0x09 => some .incPos
  | 0x0A => some .decPos
  | 0x0B => some .jumpEq
  | 0x0C => some .jumpNeq
  | 0x0D => some .jumpPos
  | 0x0E => some .setFlag
  | 0x0F => some .groupStart
  | 0x10 => some .groupEnd
  | 0x11 => some .accept
  | 0x12 => some .fail
  | _ => none

theorem ofByte?_toByte (op : OpCode) : ofByte? op.toByte = some op := by
  cases op <;> rfl

def operandWidth : OpCode → Nat
  | .testSingle | .setFlag | .groupStart | .groupEnd => 1
  | .testRange | .testNegatedRange => 2
  | .jumpEq | .jumpNeq | .jumpPos => 4
  | .testAny | .testDigit | .testLowerCase | .testUpperCase | .incPosEq | .incPos | .decPos
  | .accept | .fail => 0

def mnemonic : OpCode → String
  | .testSingle => "TEST_SINGLE"
  | .testRange => "TEST_RANGE"
  | .testNegatedRange => "TEST_NEGATED_RANGE"
  | .testAny => "TEST_ANY"
  | .testDigit => "TEST_DIGIT"
  | .testLowerCase => "TEST_LOWER_CASE"
  | .testUpperCase => "TEST_UPPER_CASE"
  | .incPosEq => "INC_POS_EQ"
  | .incPos => "INC_POS"
  | .decPos => "DEC_POS"
  | .jumpEq => "JUMP_EQ"
  | .jumpNeq => "JUMP_NEQ"
  | .jumpPos => "JUMP_POS"
  | .setFlag => "SET_FLAG"
  | .groupStart => "GROUP_START"
  | .groupEnd => "GROUP_END"
  | .accept => "ACCEPT"
  | .fail => "FAIL"

end OpCode

/-- Where a conditional jump goes. An offset counts from the end of the jump;
the other two are targets of a program that is still being written. -/
inductive JumpTarget where
  | unresolved
  | toFail
  | offset (distance : Int32)
  deriving DecidableEq, Repr

inductive Instruction where
  | testSingle (byte : UInt8)
  | testRange (lo hi : UInt8)
  | testNegatedRange (lo hi : UInt8)
  | testAny
  | testDigit
  | testLowerCase
  | testUpperCase
  | incPosEq
  | incPos
  | decPos
  | jumpEq (target : JumpTarget)
  | jumpNeq (target : JumpTarget)
  | jumpPos (distance : Int32)
  | setFlag (value : Bool)
  | groupStart (id : UInt8)
  | groupEnd (id : UInt8)
  | accept
  | fail
  deriving DecidableEq, Repr

/-- The width of every jump: an opcode and four bytes of distance. -/
def jumpWidth : Nat := 5

namespace Instruction

def opcode : Instruction → OpCode
  | .testSingle _ => .testSingle
  | .testRange _ _ => .testRange
  | .testNegatedRange _ _ => .testNegatedRange
  | .testAny => .testAny
  | .testDigit => .testDigit
  | .testLowerCase => .testLowerCase
  | .testUpperCase => .testUpperCase
  | .incPosEq => .incPosEq
  | .incPos => .incPos
  | .decPos => .decPos
  | .jumpEq _ => .jumpEq
  | .jumpNeq _ => .jumpNeq
  | .jumpPos _ => .jumpPos
  | .setFlag _ => .setFlag
  | .groupStart _ => .groupStart
  | .groupEnd _ => .groupEnd
  | .accept => .accept
  | .fail => .fail

def width (i : Instruction) : Nat := 1 + i.opcode.operandWidth

theorem width_pos (i : Instruction) : 0 < i.width := by
  simp only [width]
  omega

def jumpTarget? : Instruction → Option JumpTarget
  | .jumpEq target | .jumpNeq target => some target
  | _ => none

/-- Redirects a conditional jump and leaves every other instruction alone. -/
def withJumpTarget (target : JumpTarget) : Instruction → Instruction
  | .jumpEq _ => .jumpEq target
  | .jumpNeq _ => .jumpNeq target
  | i => i

end Instruction

end PatternEngine

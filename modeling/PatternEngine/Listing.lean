import PatternEngine.Encoding

/-!
# Listings

A listing shows a byte buffer as instructions, one line each, in order from
offset 0. It stops at the first place where no instruction can be read and
keeps the reason. The text of a line has the offset, the instruction and, for
a jump with a distance, the offset where it lands.
-/

namespace PatternEngine

/-- The characters that stand for a byte between quotes: printable ASCII as it
is, the three common control characters, quotes and the backslash behind a
backslash, and every other byte by its hexadecimal digits. -/
def escapeByte (b : UInt8) : String :=
  if b = 9 then "\\t"
  else if b = 10 then "\\n"
  else if b = 13 then "\\r"
  else if b = 34 then "\\\""
  else if b = 39 then "\\'"
  else if b = 92 then "\\\\"
  else if 32 ≤ b ∧ b < 127 then String.singleton (Char.ofNat b.toNat)
  else "\\x" ++ Numeral.hexByte b

def quoteByte (b : UInt8) : String := "'" ++ escapeByte b ++ "'"

namespace JumpTarget

def text : JumpTarget → String
  | .unresolved => "<unresolved>"
  | .toFail => "<fail>"
  | .offset distance => Numeral.signed distance.toInt

end JumpTarget

namespace Instruction

def operandText? : Instruction → Option String
  | .testSingle byte => some (quoteByte byte)
  | .testRange lo hi | .testNegatedRange lo hi => some (quoteByte lo ++ "-" ++ quoteByte hi)
  | .jumpEq target | .jumpNeq target => some target.text
  | .jumpPos distance => some (Numeral.signed distance.toInt)
  | .setFlag value => some (if value then "1" else "0")
  | .groupStart id | .groupEnd id => some ("#" ++ toString id.toNat)
  | .testAny | .testDigit | .testLowerCase | .testUpperCase | .incPosEq | .incPos | .decPos
  | .accept | .fail => none

def text (i : Instruction) : String :=
  match i.operandText? with
  | some operands => i.opcode.mnemonic ++ " " ++ operands
  | none => i.opcode.mnemonic

end Instruction

structure Line where
  offset : Nat
  instruction : Instruction
  width : Nat
  deriving DecidableEq, Repr

namespace Line

/-- Where a jump with a distance lands, as a signed number of 64 bits. -/
def destination? (line : Line) : Option Int :=
  match line.instruction.jumpTarget? with
  | some (.offset distance) =>
    some (Int.bmod ((line.offset + line.width : Nat) + distance.toInt) UInt64.size)
  | _ => none

def text (line : Line) : String :=
  let start := Numeral.padded 4 line.offset ++ "  " ++ line.instruction.text
  match line.destination? with
  | some destination => start ++ " -> " ++ Numeral.padded 4 destination
  | none => start

end Line

structure Listing where
  lines : Array Line := #[]
  stopped : Option DecodeError := none
  deriving DecidableEq, Repr

namespace Listing

def isComplete (listing : Listing) : Bool := listing.stopped.isNone

def text (listing : Listing) : String :=
  let body := listing.lines.foldl (fun text line => text ++ line.text ++ "\n") ""
  match listing.stopped with
  | some cause => body ++ "!! " ++ cause.message ++ "\n"
  | none => body

end Listing

def disassembleFrom (code : Array UInt8) (pc : Nat) (lines : Array Line) : Listing :=
  if pc < code.size then
    match Instruction.decode code pc with
    | .ok i => disassembleFrom code (pc + i.width) (lines.push ⟨pc, i, i.width⟩)
    | .error cause => ⟨lines, some cause⟩
  else ⟨lines, none⟩
termination_by code.size - pc
decreasing_by
  have := i.width_pos
  omega

def disassemble (code : Array UInt8) : Listing := disassembleFrom code 0 #[]

end PatternEngine

import PatternEngine.Encoding

/-!
# The matching machine

The machine reads an instruction at its program counter, looks at the byte of
the subject under its cursor and moves on. It stops at an accept or a fail, off
the end of the program with the flag as its answer, or at a fault, which
rejects the subject. Tests past the end of the subject leave the flag clear.
-/

namespace PatternEngine.Machine

structure State where
  pc : Nat := 0
  cursor : Nat := 0
  flag : Bool := false
  deriving DecidableEq, Repr

inductive Fault where
  | undecodable (cause : DecodeError)
  | unresolvedJump
  | jumpBeforeStart (offset : Int32)
  | stepBeforeStart
  | rewindBeforeStart (offset : Int32)
  deriving DecidableEq, Repr

/-- How a run ends. A run that is still going when its budget is used up is
`unfinished`. -/
inductive Verdict where
  | accepted
  | rejected
  | ranOff (flag : Bool)
  | faulted (pc : Nat) (cause : Fault)
  | unfinished
  deriving DecidableEq, Repr

def Verdict.matched : Verdict → Bool
  | .accepted => true
  | .ranOff flag => flag
  | .rejected | .faulted _ _ | .unfinished => false

inductive Step where
  | next (s : State)
  | stop (v : Verdict)
  deriving DecidableEq, Repr

/-- A position moved by a signed distance, unless that is before zero. -/
def displace (base : Nat) (distance : Int32) : Option Nat :=
  let moved := base + distance.toInt
  if moved < 0 then none else some moved.toNat

/-- The set of bytes of a test instruction. -/
def byteTest? : Instruction → Option (UInt8 → Bool)
  | .testSingle byte => some fun b => b == byte
  | .testRange lo hi => some fun b => lo ≤ b && b ≤ hi
  | .testNegatedRange lo hi => some fun b => b < lo || hi < b
  | .testAny => some fun _ => true
  | .testDigit => some fun b => 48 ≤ b && b ≤ 57
  | .testLowerCase => some fun b => 97 ≤ b && b ≤ 122
  | .testUpperCase => some fun b => 65 ≤ b && b ≤ 90
  | _ => none

namespace State

def jump (s : State) (when : Bool) (target : JumpTarget) : Step :=
  if s.flag = when then
    match target with
    | .offset distance =>
      match displace (s.pc + jumpWidth) distance with
      | some landing => .next { s with pc := landing }
      | none => .stop (.faulted s.pc (.jumpBeforeStart distance))
    | .unresolved | .toFail => .stop (.faulted s.pc .unresolvedJump)
  else .next { s with pc := s.pc + jumpWidth }

def perform (subject : Array UInt8) (s : State) (i : Instruction) : Step :=
  let next := { s with pc := s.pc + i.width }
  match i with
  | .incPosEq => .next { next with cursor := if s.flag then s.cursor + 1 else s.cursor }
  | .incPos => .next { next with cursor := s.cursor + 1 }
  | .decPos =>
    if s.cursor = 0 then .stop (.faulted s.pc .stepBeforeStart)
    else .next { next with cursor := s.cursor - 1 }
  | .jumpEq target => s.jump true target
  | .jumpNeq target => s.jump false target
  | .jumpPos distance =>
    match displace s.cursor distance with
    | some moved => .next { next with cursor := moved }
    | none => .stop (.faulted s.pc (.rewindBeforeStart distance))
  | .setFlag value => .next { next with flag := value }
  | .groupStart _ | .groupEnd _ => .next next
  | .accept => .stop .accepted
  | .fail => .stop .rejected
  | test =>
    match byteTest? test with
    | some holds => .next { next with flag := subject[s.cursor]?.any holds }
    | none => .next next

end State

def step (code subject : Array UInt8) (s : State) : Step :=
  if s.pc < code.size then
    match Instruction.decode code s.pc with
    | .ok i => s.perform subject i
    | .error cause => .stop (.faulted s.pc (.undecodable cause))
  else .stop (.ranOff s.flag)

/-- Runs for a number of steps at most. -/
def run (code subject : Array UInt8) : Nat → State → Verdict
  | 0, _ => .unfinished
  | fuel + 1, s =>
    match step code subject s with
    | .stop v => v
    | .next s => run code subject fuel s

/-- A number of steps that no halting run exceeds. While the cursor is inside
the subject a halting run never repeats a state. Past the end every test fails,
so flag and program counter soon repeat there; a run that comes back does so by
at least one byte a round, from a height of at most one distance for each state
of a round. -/
def stepBudget (code subject : Array UInt8) : Nat :=
  let controls := 2 * code.size + 1
  controls * controls * controls * (subject.size + 1) * (1 <<< 34)

def judge (code : Array UInt8) (subject : String) : Verdict :=
  let bytes := subject.toUTF8.data
  run code bytes (stepBudget code bytes) {}

def execute (code : Array UInt8) (subject : String) : Bool := (judge code subject).matched

end PatternEngine.Machine

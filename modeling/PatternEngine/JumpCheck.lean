import PatternEngine.Encoding

/-!
# The check of jumps

Bytes are a sound program when they can be read as instructions to the end and
every jump lands on the start of one of them. Where a jump leads is known only
from its own distance, so all starts are gathered before the jumps are looked
at.
-/

namespace PatternEngine

/-- Which positions start an instruction, and the jumps with their landing
places. -/
structure Survey where
  starts : Array Bool
  jumps : Array (Nat × Nat)

/-- Walks over a buffer and refuses what cannot be read and what lands before
the start. -/
def surveyFrom (code : Array UInt8) (pc : Nat) (starts : Array Bool) (jumps : Array (Nat × Nat)) :
    Except CompileError Survey :=
  if pc < code.size then
    match Instruction.decode code pc with
    | .error cause => .error (.decode cause)
    | .ok i =>
      match i.jumpTarget? with
      | some (.offset distance) =>
        let landing : Int := (pc + i.width : Nat) + distance.toInt
        if landing < 0 then .error (.unresolvedJump pc)
        else
          surveyFrom code (pc + i.width) (starts.setIfInBounds pc true)
            (jumps.push (pc, landing.toNat))
      | _ => surveyFrom code (pc + i.width) (starts.setIfInBounds pc true) jumps
  else .ok ⟨starts, jumps⟩
termination_by code.size - pc
decreasing_by
  all_goals
    have := i.width_pos
    omega

def survey (code : Array UInt8) : Except CompileError Survey :=
  surveyFrom code 0 (Array.replicate code.size false) #[]

def Survey.isStart (s : Survey) (position : Nat) : Bool := s.starts[position]?.getD false

/-- Every jump lands on the start of an instruction. -/
def verify (code : Array UInt8) : Except CompileError Unit :=
  match survey code with
  | .error e => .error e
  | .ok s =>
    match s.jumps.find? fun jump => !s.isStart jump.2 with
    | some jump => .error (.unresolvedJump jump.1)
    | none => .ok ()

end PatternEngine

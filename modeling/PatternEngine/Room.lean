import PatternEngine.Fragment
import PatternEngine.Parse

/-!
# Room for a parse that ended early

A parse that ended early still claims room for what it had taken, in the order
in which it would have been laid out: the enclosing levels from the outside in,
and on each level the finished branches before the finished terms. Only when
all of that fits is the token that ended the parse to blame.
-/

namespace PatternEngine

def Level.claim (limit used : Nat) (level : Level) : Except Nat Nat := do
  let used ← level.branches.reverse.foldlM (fun used branch => do
    let used ← branch.fragment.code.claim limit used
    PatternEngine.claim limit used jumpWidth) used
  level.terms.reverse.foldlM (fun used term => do
    let used ← term.fragment.code.claim limit used
    PatternEngine.claim limit used jumpWidth) used

/-- The level at hand. Closing it lays out its last branch once more, now with
its exits, in place of the open terms. -/
def Level.claimLast (limit used : Nat) (level : Level) (last : Expr) (closed : Bool) :
    Except Nat Nat := do
  if closed then
    let used ← { level with terms := [] }.claim limit used
    (level.branch last).fragment.code.claim limit used
  else
    let used ← level.claim limit used
    last.fragment.code.claim limit used

def ParseState.claim (limit : Nat) (s : ParseState) (closed : Bool) : Except Nat Nat := do
  let used ← s.enclosing.reverse.foldlM (fun used group => do
    let used ← group.outer.claim limit used
    PatternEngine.claim limit used (Instruction.groupStart 0).width) 0
  match s.phase with
  | .operand => s.level.claim limit used
  | .term last _ => s.level.claimLast limit used last closed

def outOfRoom (limit requested : Nat) : CompileError := .resourceLimit .bytecode requested limit

/-- The error of a parse that ended early, unless room had run out before. -/
def Halt.error (limit : Nat) (h : Halt) : CompileError :=
  match h.state.claim limit h.refusal.levelClosed with
  | .ok _ => .malformed h.refusal.error
  | .error requested => outOfRoom limit requested

end PatternEngine

import PatternEngine.Instruction

/-!
# Code under construction

Code is put together from pieces. A piece is an instruction that is already
final, a jump over an exact distance, a jump to the final rejection, or a step
back of the cursor. No piece knows where it will stand, so a stretch of code
may be used twice. Code is kept as a rope: its size is at hand without a walk,
and a stretch used twice is shared.

Room for a program is claimed in order, one piece at a time, except that a
block claims the room of all its pieces at once.
-/

namespace PatternEngine

inductive Piece where
  | plain (i : Instruction)
  | jumpIf (flag : Bool) (distance : Int)
  | rejectUnlessFlag
  | rewind (count : Nat)
  deriving DecidableEq, Repr

def Piece.width : Piece → Nat
  | .plain i => i.width
  | .jumpIf _ _ | .rejectUnlessFlag | .rewind _ => jumpWidth

/-- Pieces in order, indexed by the number of bytes they take. -/
inductive Rope : Nat → Type where
  | nil : Rope 0
  | piece (p : Piece) : Rope p.width
  | append {m n : Nat} (first : Rope m) (second : Rope n) : Rope (m + n)
  | block {n : Nat} (inner : Rope n) : Rope n

namespace Rope

def pieces {n : Nat} : Rope n → List Piece
  | .nil => []
  | .piece p => [p]
  | .append first second => first.pieces ++ second.pieces
  | .block inner => inner.pieces

end Rope

structure Code where
  size : Nat
  rope : Rope size

namespace Code

def nil : Code := ⟨0, .nil⟩

def piece (p : Piece) : Code := ⟨p.width, .piece p⟩

def plain (i : Instruction) : Code := piece (.plain i)

def append (a b : Code) : Code := ⟨a.size + b.size, .append a.rope b.rope⟩

instance : Append Code := ⟨append⟩

def block (c : Code) : Code := ⟨c.size, .block c.rope⟩

def pieces (c : Code) : List Piece := c.rope.pieces

@[simp] theorem pieces_nil : nil.pieces = [] := rfl

@[simp] theorem pieces_piece (p : Piece) : (piece p).pieces = [p] := rfl

@[simp] theorem pieces_append (a b : Code) : (a ++ b).pieces = a.pieces ++ b.pieces := rfl

@[simp] theorem pieces_block (c : Code) : c.block.pieces = c.pieces := rfl

@[simp] theorem size_append (a b : Code) : (a ++ b).size = a.size + b.size := rfl

@[simp] theorem size_block (c : Code) : c.block.size = c.size := rfl

end Code

/-- Adds `amount` to what is used of a limit, or gives the sum that exceeds it. -/
def claim (limit used amount : Nat) : Except Nat Nat :=
  if used + amount ≤ limit then .ok (used + amount) else .error (used + amount)

def Rope.claim (limit used : Nat) {n : Nat} : Rope n → Except Nat Nat
  | .nil => .ok used
  | .piece p => PatternEngine.claim limit used p.width
  | .append first second =>
    match first.claim limit used with
    | .ok used => second.claim limit used
    | .error requested => .error requested
  | .block _ => PatternEngine.claim limit used n

def Code.claim (limit used : Nat) (c : Code) : Except Nat Nat := c.rope.claim limit used

end PatternEngine

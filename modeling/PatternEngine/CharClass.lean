/-!
# Character classes

The body of a character class lists bytes and ranges of bytes. A caret in front
takes the complement. A dash between two characters makes a range of them and
stands for itself anywhere else. Only ASCII may be listed, and a class lists at
least one item.
-/

namespace PatternEngine

structure ByteRange where
  lo : UInt8
  hi : UInt8
  lo_le_hi : lo ≤ hi
  deriving DecidableEq, Repr

namespace ByteRange

def single (b : UInt8) : ByteRange := ⟨b, b, UInt8.le_refl b⟩

def isSingle (r : ByteRange) : Bool := r.lo == r.hi

def ofBounds? (lo hi : UInt8) : Option ByteRange :=
  if h : lo ≤ hi then some ⟨lo, hi, h⟩ else none

end ByteRange

structure CharClass where
  negated : Bool
  items : List ByteRange
  items_ne_nil : items ≠ []
  deriving DecidableEq, Repr

namespace CharClass

def asciiByte? (c : Char) : Option UInt8 :=
  if c.val < 128 then some c.toUInt8 else none

/-- Reads items from left to right; a dash with a character on each side of it
is taken as a range before it is taken as an item. The items read before are
`done`, latest in front. -/
def itemsFrom (done : List ByteRange) : List Char → Option (List ByteRange)
  | [] => some done.reverse
  | lo :: '-' :: hi :: rest => do
    let item ← ByteRange.ofBounds? (← asciiByte? lo) (← asciiByte? hi)
    itemsFrom (item :: done) rest
  | c :: rest => do
    let item := ByteRange.single (← asciiByte? c)
    itemsFrom (item :: done) rest

def caret : List Char → Bool × List Char
  | '^' :: body => (true, body)
  | body => (false, body)

def ofBody? (body : String) : Option CharClass :=
  let (negated, listed) := caret body.toList
  match itemsFrom [] listed with
  | some (item :: more) => some ⟨negated, item :: more, by simp⟩
  | _ => none

end CharClass

end PatternEngine

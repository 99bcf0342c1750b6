import Std.Data.HashMap

/-!
# A store of the most recently used entries

A map holds the entries, and a queue holds their keys in the order of their last
use, latest in front. When the queue is as long as the capacity, a new entry
pushes out the one at its end. A capacity of zero counts as one.
-/

namespace PatternEngine

structure Cache (κ υ : Type) [BEq κ] [Hashable κ] where
  capacity : Nat
  map : Std.HashMap κ υ
  order : List κ

namespace Cache

variable {κ υ : Type} [BEq κ] [Hashable κ]

def empty (capacity : Nat) : Cache κ υ := ⟨max capacity 1, ∅, []⟩

def size (c : Cache κ υ) : Nat := c.map.size

def isEmpty (c : Cache κ υ) : Bool := c.map.isEmpty

def clear (c : Cache κ υ) : Cache κ υ := { c with map := ∅, order := [] }

/-- The value of a key, without counting as a use of it. -/
def get? (c : Cache κ υ) (k : κ) : Option υ := c.map[k]?

def isMostRecent (c : Cache κ υ) (k : κ) : Bool := c.order.head? == some k

/-- Moves a key to the front of the queue, unless it is there. -/
def promote (c : Cache κ υ) (k : κ) : Cache κ υ :=
  if c.isMostRecent k then c else { c with order := k :: c.order.erase k }

def touch (c : Cache κ υ) (k : κ) : Cache κ υ :=
  if c.map.contains k && !c.isMostRecent k then c.promote k else c

/-- Forgets the entry whose key is at the end of the queue. -/
def dropOldest (c : Cache κ υ) : Cache κ υ :=
  match c.order.getLast? with
  | some oldest => { c with map := c.map.erase oldest, order := c.order.dropLast }
  | none => c

/-- Makes room where there is none for one more entry. -/
def makeRoom (c : Cache κ υ) : Cache κ υ :=
  if c.order.length = c.capacity then c.dropOldest else c

/-- Puts a new key in front of the queue. -/
def pushFront (c : Cache κ υ) (k : κ) (v : υ) : Cache κ υ :=
  { c with map := c.map.insert k v, order := k :: c.order }

/-- A key that is present gets the value in its place, a new one gets room. -/
def insert (c : Cache κ υ) (k : κ) (v : υ) : Cache κ υ :=
  if c.map.contains k then { c with map := c.map.insert k v }.promote k
  else c.makeRoom.pushFront k v

end Cache

end PatternEngine

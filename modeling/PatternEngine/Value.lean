/-!
# Structured values

Values that options are read from. A set of named fields is given as a record,
or as a list of the fields in their order with any number of them left out at
the end. Fields of a record that have no meaning are passed over.
-/

namespace PatternEngine

inductive Value where
  | null
  | boolean (b : Bool)
  | integer (n : Int)
  | fraction
  | text (s : String)
  | list (items : List Value)
  | record (fields : List (String × Value))
  deriving Inhabited

namespace Value

def bool? : Value → Option Bool | .boolean b => some b | _ => none

def count? : Value → Option Nat
  | .integer n => if 0 ≤ n ∧ n < 18446744073709551616 then some n.toNat else none
  | _ => none

def holdsFields (size : Nat) : Value → Bool
  | .list items => items.length ≤ size
  | .record _ => true
  | _ => false

def field? (position : Nat) (name : String) : Value → Option Value
  | .list items => items[position]?
  | .record fields => fields.lookup name
  | _ => none

/-- Reads a field, or takes its default where it is left out. -/
def read {α : Type} (v : Value) (position : Nat) (name : String) (kind : Value → Option α)
    (missing : α) : Option α :=
  match v.field? position name with
  | some given => kind given
  | none => some missing

end Value

end PatternEngine

import PatternEngine.Code
import PatternEngine.Expr

/-!
# Code for expressions

The fragment of an expression leaves the flag set when it succeeds. When it
fails it leaves the flag clear and the cursor where it started. A branch of
several terms moves the cursor back by what its earlier terms consumed; when
that number is not known the failure cannot be undone and the whole subject is
rejected.

Terms of a branch and branches of an alternation are gathered from left to
right and put together from right to left, because a jump must know the size of
what it leaves out.
-/

namespace PatternEngine

structure Fragment where
  code : Code
  nullable : Bool
  width : Option Nat

/-! ### Single bytes -/

def ByteRange.test (r : ByteRange) : Instruction :=
  if r.lo = 48 ∧ r.hi = 57 then .testDigit
  else if r.lo = 97 ∧ r.hi = 122 then .testLowerCase
  else if r.lo = 65 ∧ r.hi = 90 then .testUpperCase
  else if r.lo = r.hi then .testSingle r.lo
  else .testRange r.lo r.hi

/-- Tests one after another, left for good as soon as the flag is `settled`. -/
def Code.chain (settled : Bool) (tests : List Instruction) : Code :=
  tests.foldr (fun test rest =>
    if rest.size = 0 then .plain test
    else .plain test ++ (.piece (.jumpIf settled rest.size) ++ rest)) .nil

def CharClass.tests (c : CharClass) : Code :=
  if c.negated then .chain false (c.items.map fun r => .testNegatedRange r.lo r.hi)
  else .chain true (c.items.map ByteRange.test)

namespace Fragment

def oneByte (tests : Code) : Fragment where
  code := tests ++ .plain .incPosEq
  nullable := false
  width := some 1

/-! ### Groups, loops and choices -/

def inGroup (id : Nat) (f : Fragment) : Fragment where
  code := .plain (.groupStart (UInt8.ofNat id)) ++ (f.code ++ .plain (.groupEnd (UInt8.ofNat id)))
  nullable := f.nullable
  width := f.width

/-- A body that may be left out has a width only where it consumes nothing. -/
def zeroOrOne (f : Fragment) : Fragment where
  code := f.code ++ .plain (.setFlag true)
  nullable := true
  width := f.width.filter (· == 0)

/-- Runs code again and again until it fails, and succeeds. -/
def loop (body : Code) : Code :=
  body ++ (.piece (.jumpIf true (-((body.size + jumpWidth : Nat) : Int))) ++
    .plain (.setFlag true))

/-- A nullable body would repeat without end where it consumes nothing, so it
runs once. -/
def zeroOrMore (f : Fragment) : Fragment :=
  if f.nullable then f.zeroOrOne
  else { code := loop f.code, nullable := true, width := f.width.filter (· == 0) }

/-- One run of the body and then a loop over a copy of it. The room of the copy
is claimed before any of it is written. -/
def oneOrMore (f : Fragment) : Fragment :=
  if f.nullable then f
  else
    let again := loop f.code
    { code := f.code ++ (Code.piece (.jumpIf false again.size) ++ again).block
      nullable := false
      width := none }

def quantify : Quantifier → Fragment → Fragment
  | .zeroOrMore => zeroOrMore
  | .oneOrMore => oneOrMore
  | .zeroOrOne => zeroOrOne

def either (first rest : Fragment) : Fragment where
  code := first.code ++ (.piece (.jumpIf true rest.code.size) ++ rest.code)
  nullable := first.nullable || rest.nullable
  width := widthJoin first.width rest.width

end Fragment

/-! ### Branches -/

structure PlacedTerm where
  fragment : Fragment
  position : Nat
  before : Option Nat

structure Branch where
  terms : List PlacedTerm := []
  length : Nat := 0
  nullable : Bool := true
  width : Option Nat := some 0

namespace Branch

def push (b : Branch) (f : Fragment) : Branch where
  terms := ⟨f, b.length, b.width⟩ :: b.terms
  length := b.length + 1
  nullable := b.nullable && f.nullable
  width := widthSum b.width f.width

/-- The numbers of bytes that failures step back by, largest in front. -/
def rewinds (b : Branch) : List Nat :=
  b.terms.filterMap fun t => if t.position = 0 then none else t.before

/-- A handler for each number of bytes, the smallest first. It steps back and
goes on to the end. -/
def handlers (counts : List Nat) : Code :=
  counts.foldl (fun rest count =>
    if rest.size = 0 then .piece (.rewind count)
    else .piece (.rewind count) ++ (.piece (.jumpIf false rest.size) ++ rest)) .nil

def undo (b : Branch) : Code :=
  if b.rewinds.isEmpty then .nil
  else
    let steps := handlers b.rewinds
    .piece (.jumpIf true steps.size) ++ steps

/-- Where a failing term goes from `ahead` bytes before the end of the terms.
Nothing has to be undone for the first term. The handler of the term at
position `i + 1` stands `2 * i + 1` jumps past the terms. -/
def exit (undoSize ahead : Nat) (t : PlacedTerm) : Piece :=
  match t.position, t.before with
  | 0, _ => .jumpIf false (ahead + undoSize : Nat)
  | i + 1, some _ => .jumpIf false (ahead + jumpWidth * (2 * i + 1) : Nat)
  | _ + 1, none => .rejectUnlessFlag

def guarded (undoSize : Nat) (terms : List PlacedTerm) : Code :=
  terms.foldl (fun rest t =>
    t.fragment.code ++ (.piece (exit undoSize rest.size t) ++ rest)) .nil

/-- A branch whose failures leave it at its end. A branch of one term is that
term. -/
def close (b : Branch) : Fragment :=
  match b.terms with
  | [only] => only.fragment
  | terms =>
    let undo := b.undo
    { code := guarded undo.size terms ++ undo, nullable := b.nullable, width := b.width }

/-- A branch after which nothing is left to try: every failure but that of the
last term rejects the subject. -/
def openCode (b : Branch) : Code :=
  match b.terms with
  | [] => .nil
  | last :: earlier =>
    earlier.foldl (fun rest t => t.fragment.code ++ (.piece .rejectUnlessFlag ++ rest))
      last.fragment.code

end Branch

/-! ### Alternations -/

/-- An alternation so far: its closed branches, latest in front, and the branch
at hand. -/
structure Choice where
  earlier : List Fragment := []
  branch : Branch := {}

namespace Choice

def push (c : Choice) (f : Fragment) : Choice := { c with branch := c.branch.push f }

def close (c : Choice) : Fragment :=
  c.earlier.foldl (fun rest first => first.either rest) c.branch.close

/-- The code of an alternation whose last branch is left open. -/
def openCode (c : Choice) : Code :=
  c.earlier.foldl (fun rest first => first.code ++ (.piece (.jumpIf true rest.size) ++ rest))
    c.branch.openCode

end Choice

namespace Expr

/-- Adds an expression to a choice: its terms to the branch at hand, and its
branches where that branch is still empty. -/
def addTo (c : Choice) : Expr → Choice
  | .any => c.push (.oneByte (.plain .testAny))
  | .byte b => c.push (.oneByte (.plain (.testSingle b)))
  | .oneOf cls => c.push (.oneByte cls.tests)
  | .group id body => c.push ((addTo {} body).close.inGroup id)
  | .quantified q body => c.push ((addTo {} body).close.quantify q)
  | .cat first rest => addTo (c.push (addTo {} first).close) rest
  | .alt first rest =>
    if c.branch.terms.isEmpty then
      addTo { earlier := (addTo {} first).close :: c.earlier, branch := {} } rest
    else c.push ((addTo {} first).close.either (addTo {} rest).close)

def fragment (e : Expr) : Fragment := (addTo {} e).close

def openCode (e : Expr) : Code := (addTo {} e).openCode

end Expr

end PatternEngine

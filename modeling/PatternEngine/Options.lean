import PatternEngine.Program
import PatternEngine.Value

/-!
# Options

Limits of a compilation, and the size of the store of a registry. Options are
checked only on request: a compilation works with any of them. They are given
field by field, as flags, as a sequence of settings, or as a structured value.
-/

namespace PatternEngine

inductive OptionsError where
  | maxPatternLengthInvalid (provided : Nat)
  | maxProgramLengthOutOfRange (provided max : Nat)
  | cacheCapacityInvalid (provided : Nat)
  deriving DecidableEq, Repr

def OptionsError.message : OptionsError → String
  | .maxPatternLengthInvalid provided => s!"max_pattern_len must be at least 1 (got {provided})"
  | .maxProgramLengthOutOfRange provided max =>
    s!"max_program_len {provided} is outside the supported range 1..={max}"
  | .cacheCapacityInvalid provided =>
    s!"cache_capacity must be at least 1 when caching is enabled (got {provided})"

/-! ### Flags -/

/-- Flags as raw bits. Bits without a meaning are kept. -/
structure CompileFlags where
  bits : UInt8
  deriving DecidableEq, Repr

namespace CompileFlags

def none : CompileFlags := ⟨0⟩

/-- Log the tokens and the finished program. -/
def debugTrace : CompileFlags := ⟨1⟩

def contains (f g : CompileFlags) : Bool := f.bits &&& g.bits == g.bits

def isKnown (f : CompileFlags) : Bool := debugTrace.contains f

def truncate (f : CompileFlags) : CompileFlags := ⟨f.bits &&& debugTrace.bits⟩

end CompileFlags

/-! ### Options of a compilation -/

structure CompileOptions where
  debugTrace : Bool := false
  maxPatternLength : Nat := 65536
  maxProgramLength : Nat := defaultProgramLength
  deriving DecidableEq, Repr

namespace CompileOptions

def ofFlags (f : CompileFlags) : CompileOptions := { debugTrace := f.contains .debugTrace }

def flags (o : CompileOptions) : CompileFlags := if o.debugTrace then .debugTrace else .none

def validate (o : CompileOptions) : Except OptionsError Unit :=
  if o.maxPatternLength = 0 then .error (.maxPatternLengthInvalid 0)
  else if o.maxProgramLength = 0 ∨ PatternEngine.maxProgramLength < o.maxProgramLength then
    .error (.maxProgramLengthOutOfRange o.maxProgramLength PatternEngine.maxProgramLength)
  else .ok ()

inductive Setting where
  | debugTrace (value : Bool)
  | flags (f : CompileFlags)
  | maxPatternLength (length : Nat)
  | maxProgramLength (length : Nat)

def set (o : CompileOptions) : Setting → CompileOptions
  | .debugTrace value => { o with debugTrace := value }
  | .flags f => { o with debugTrace := f.contains .debugTrace }
  | .maxPatternLength length => { o with maxPatternLength := length }
  | .maxProgramLength length => { o with maxProgramLength := length }

def build (settings : List Setting) : Except OptionsError CompileOptions := do
  let o := settings.foldl set {}
  o.validate
  return o

def ofValue? (v : Value) : Option CompileOptions := do
  guard (v.holdsFields 3)
  let defaults : CompileOptions := {}
  let debugTrace ← v.read 0 "debug_trace" Value.bool? defaults.debugTrace
  let maxPatternLength ← v.read 1 "max_pattern_len" Value.count? defaults.maxPatternLength
  let maxProgramLength ← v.read 2 "max_program_len" Value.count? defaults.maxProgramLength
  return ⟨debugTrace, maxPatternLength, maxProgramLength⟩

end CompileOptions

/-! ### Options of a registry -/

structure RegistryOptions where
  compile : CompileOptions := {}
  cachePatterns : Bool := true
  cacheCapacity : Nat := 256
  deriving DecidableEq, Repr

namespace RegistryOptions

def validate (o : RegistryOptions) : Except OptionsError Unit := do
  o.compile.validate
  if o.cachePatterns ∧ o.cacheCapacity = 0 then throw (.cacheCapacityInvalid 0)

inductive Setting where
  | compile (options : CompileOptions)
  | cachePatterns (value : Bool)
  | cacheCapacity (capacity : Nat)

def set (o : RegistryOptions) : Setting → RegistryOptions
  | .compile options => { o with compile := options }
  | .cachePatterns value => { o with cachePatterns := value }
  | .cacheCapacity capacity => { o with cacheCapacity := capacity }

def build (settings : List Setting) : Except OptionsError RegistryOptions := do
  let o := settings.foldl set {}
  o.validate
  return o

def ofValue? (v : Value) : Option RegistryOptions := do
  guard (v.holdsFields 3)
  let defaults : RegistryOptions := {}
  let compile ← v.read 0 "compile" CompileOptions.ofValue? defaults.compile
  let cachePatterns ← v.read 1 "cache_patterns" Value.bool? defaults.cachePatterns
  let cacheCapacity ← v.read 2 "cache_capacity" Value.count? defaults.cacheCapacity
  return ⟨compile, cachePatterns, cacheCapacity⟩

end RegistryOptions

end PatternEngine

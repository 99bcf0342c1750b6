import PatternEngine.Cache
import PatternEngine.Pattern

/-!
# A registry of compiled patterns

A registry compiles patterns on request under its options. With a store it
hands out the pattern it already has, and counts the requests that found one
and the requests that did not. A request that fails to compile is counted and
changes nothing else. Each successful compilation gets a number of its own, so
that two handles can be told apart.
-/

namespace PatternEngine

structure CacheKey where
  source : String
  debugTrace : Bool
  deriving DecidableEq, Hashable, Repr

structure CacheStats where
  hits : Nat := 0
  misses : Nat := 0
  deriving DecidableEq, Repr

namespace CacheStats

def hit (s : CacheStats) : CacheStats := { s with hits := s.hits + 1 }

def miss (s : CacheStats) : CacheStats := { s with misses := s.misses + 1 }

end CacheStats

/-- A pattern handed out by a registry and the number of its compilation. -/
structure Handle where
  serial : Nat
  pattern : Pattern
  deriving DecidableEq, Repr

structure PatternStore where
  cache : Cache CacheKey Handle
  stats : CacheStats := {}

structure Registry where
  options : RegistryOptions
  store : Option PatternStore
  compiled : Nat := 0

namespace Registry

def new (options : RegistryOptions) : Registry where
  options := options
  store := if options.cachePatterns then some { cache := .empty options.cacheCapacity } else none

def key (r : Registry) (source : String) : CacheKey := ⟨source, r.options.compile.debugTrace⟩

def stored? (r : Registry) (source : String) : Option Handle := do
  (← r.store).cache.get? (r.key source)

def cachedSize (r : Registry) : Nat :=
  match r.store with
  | some store => store.cache.size
  | none => 0

def metrics (r : Registry) : Option CacheStats := r.store.map PatternStore.stats

/-- Compiles a source that is not stored and stores what comes of it. -/
def compileNew (r : Registry) (source : String) : Except CompileError Handle × Registry :=
  match compile r.options.compile source with
  | .error e => (.error e, r)
  | .ok pattern =>
    let handle : Handle := ⟨r.compiled, pattern⟩
    (.ok handle,
      { r with
        store := r.store.map fun store =>
          { store with cache := store.cache.insert (r.key source) handle }
        compiled := r.compiled + 1 })

/-- A pattern that is found is touched, unless it is the most recent one. -/
def request (r : Registry) (source : String) : Except CompileError Handle × Registry :=
  match r.store with
  | none => r.compileNew source
  | some store =>
    match store.cache.get? (r.key source) with
    | some handle =>
      let cache :=
        if store.cache.isMostRecent (r.key source) then store.cache
        else store.cache.touch (r.key source)
      (.ok handle, { r with store := some { cache := cache, stats := store.stats.hit } })
    | none =>
      { r with store := some { store with stats := store.stats.miss } }.compileNew source

def isMatch (r : Registry) (source subject : String) : Except CompileError Bool × Registry :=
  let (answer, r) := r.request source
  (answer.map fun handle => handle.pattern.isMatch subject, r)

/-- Forgets every pattern and every count. -/
def clear (r : Registry) : Registry :=
  { r with store := r.store.map fun store => { cache := store.cache.clear, stats := {} } }

end Registry

end PatternEngine

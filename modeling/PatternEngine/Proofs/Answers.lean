import PatternEngine.Registry
import PatternEngine.Proofs.Recency

/-!
# What a registry answers

A registry is asked for patterns and for matches, and is cleared now and then.
A request finds its pattern in the store, or compiles it, or fails to. Main
statement: whatever a registry went through, it answers as a direct compilation
under its options would, so neither its store nor tracing shows in any answer.
-/

namespace PatternEngine

/-- Tracing has no part in what comes of a compilation. -/
theorem compile_congr {o other : CompileOptions}
    (hpattern : other.maxPatternLength = o.maxPatternLength)
    (hprogram : other.maxProgramLength = o.maxProgramLength) (source : String) :
    compile other source = compile o source := by
  simp only [compile, hpattern, hprogram]

namespace Registry

/-! ### Histories -/

inductive Call where
  | request (source : String)
  | isMatch (source subject : String)
  | clear
  deriving Repr

inductive Answer where
  | pattern (result : Except CompileError Pattern)
  | matched (result : Except CompileError Bool)
  | cleared

def perform (r : Registry) : Call → Answer × Registry
  | .request source =>
    let (result, next) := r.request source
    (.pattern (result.map Handle.pattern), next)
  | .isMatch source subject =>
    let (result, next) := r.isMatch source subject
    (.matched result, next)
  | .clear => (.cleared, r.clear)

/-- A registry after some calls, the latest in front. -/
def after (options : RegistryOptions) : List Call → Registry
  | [] => new options
  | call :: earlier => ((after options earlier).perform call).2

/-- The answers to some calls, the latest in front. -/
def answers (options : RegistryOptions) : List Call → List Answer
  | [] => []
  | call :: earlier => ((after options earlier).perform call).1 :: answers options earlier

/-- The answer to a call that asks no registry. -/
def Call.direct (options : CompileOptions) : Call → Answer
  | .request source => .pattern (compile options source)
  | .isMatch source subject =>
    .matched ((compile options source).map fun pattern => pattern.isMatch subject)
  | .clear => .cleared

/-! ### Requests -/

theorem stored?_of_store {r : Registry} {store : PatternStore} (h : r.store = some store)
    (source : String) : r.stored? source = store.cache.get? (r.key source) := by
  rw [stored?, h]
  rfl

/-- All that can come of a request. The touch that is left out for the most recent
pattern would change nothing. -/
inductive Requested (r : Registry) (source : String) :
    Except CompileError Handle × Registry → Prop where
  | hit {store : PatternStore} {handle : Handle} (hstore : r.store = some store)
      (hstored : r.stored? source = some handle) :
      Requested r source (.ok handle, { r with
        store := some ⟨store.cache.touch (r.key source), store.stats.hit⟩ })
  | failed {e : CompileError} (hnone : r.stored? source = none)
      (hcompile : compile r.options.compile source = .error e) :
      Requested r source (.error e, { r with
        store := r.store.map fun store => { store with stats := store.stats.miss } })
  | compiled {pattern : Pattern} (hnone : r.stored? source = none)
      (hcompile : compile r.options.compile source = .ok pattern) :
      Requested r source (.ok ⟨r.compiled, pattern⟩, { r with
        store := r.store.map fun store =>
          ⟨store.cache.insert (r.key source) ⟨r.compiled, pattern⟩, store.stats.miss⟩
        compiled := r.compiled + 1 })

theorem requested (r : Registry) (source : String) : Requested r source (r.request source) := by
  obtain ⟨options, store, compiled⟩ := r
  cases store with
  | none =>
    have hnone : stored? ⟨options, none, compiled⟩ source = none := rfl
    cases hcompile : compile options.compile source with
    | error e =>
      simp only [request, compileNew, hcompile]
      exact .failed hnone hcompile
    | ok pattern =>
      simp only [request, compileNew, hcompile]
      exact .compiled hnone hcompile
  | some store =>
    have hstored : stored? ⟨options, some store, compiled⟩ source =
        store.cache.get? (key ⟨options, some store, compiled⟩ source) := stored?_of_store rfl source
    cases hget : store.cache.get? (key ⟨options, some store, compiled⟩ source) with
    | some handle =>
      simp only [request, hget, Cache.ite_isMostRecent_touch]
      exact .hit rfl (hstored.trans hget)
    | none =>
      have hnone := hstored.trans hget
      cases hcompile : compile options.compile source with
      | error e =>
        simp only [request, compileNew, hget, hcompile]
        exact .failed hnone hcompile
      | ok pattern =>
        simp only [request, compileNew, hget, hcompile]
        exact .compiled hnone hcompile

theorem request_of_stored? {r : Registry} {source : String} {handle : Handle}
    (h : r.stored? source = some handle) : (r.request source).1 = .ok handle := by
  have hrequested := requested r source
  generalize r.request source = result at hrequested ⊢
  cases hrequested with
  | hit _ hstored =>
    cases hstored.symm.trans h
    rfl
  | failed hnone | compiled hnone => cases hnone.symm.trans h

/-- What is stored under a key is what its source compiles to. -/
structure Faithful (options : RegistryOptions) (r : Registry) : Prop where
  options_eq : r.options = options
  pattern_eq : ∀ store, r.store = some store → ∀ key handle,
    store.cache.get? key = some handle → compile options.compile key.source = .ok handle.pattern

theorem Faithful.new (options : RegistryOptions) : Faithful options (new options) where
  options_eq := rfl
  pattern_eq := by
    intro store hstore
    simp only [Registry.new] at hstore
    split at hstore
    · cases hstore
      intro key handle hstored
      cases (Cache.get?_empty ..).symm.trans hstored
    · cases hstore

section
variable {options : RegistryOptions} {r : Registry} {source : String}

theorem Faithful.clear (h : Faithful options r) : Faithful options r.clear where
  options_eq := h.options_eq
  pattern_eq := by
    intro store hstore
    obtain ⟨_, -, rfl⟩ := Option.map_eq_some_iff.mp hstore
    intro key handle hstored
    cases (Cache.get?_clear ..).symm.trans hstored

/-- A store stays faithful when what is put in front is what its source compiles
to. -/
theorem Faithful.insert {cache : Cache CacheKey Handle} {handle : Handle}
    (hcompile : compile options.compile source = .ok handle.pattern)
    (h : ∀ key found, cache.get? key = some found →
      compile options.compile key.source = .ok found.pattern) :
    ∀ key found, (cache.insert (r.key source) handle).get? key = some found →
      compile options.compile key.source = .ok found.pattern := by
  intro key found hfound
  rcases Cache.get?_of_insert hfound with ⟨rfl, rfl⟩ | hfound
  · exact hcompile
  · exact h key found hfound

theorem Faithful.request (h : Faithful options r) (source : String) :
    Faithful options (r.request source).2 ∧
      (r.request source).1.map Handle.pattern = compile options.compile source := by
  have hrequested := requested r source
  generalize r.request source = result at hrequested ⊢
  cases hrequested with
  | hit hstore hstored =>
    rw [stored?_of_store hstore] at hstored
    refine ⟨⟨h.options_eq, ?_⟩, (h.pattern_eq _ hstore _ _ hstored).symm⟩
    rintro _ ⟨⟩ key handle hfound
    rw [Cache.get?_touch] at hfound
    exact h.pattern_eq _ hstore key handle hfound
  | failed hnone hcompile =>
    rw [h.options_eq] at hcompile
    refine ⟨⟨h.options_eq, ?_⟩, hcompile.symm⟩
    intro store hstore
    obtain ⟨before, hbefore, rfl⟩ := Option.map_eq_some_iff.mp hstore
    exact h.pattern_eq before hbefore
  | compiled hnone hcompile =>
    rw [h.options_eq] at hcompile
    refine ⟨⟨h.options_eq, ?_⟩, hcompile.symm⟩
    intro store hstore
    obtain ⟨before, hbefore, rfl⟩ := Option.map_eq_some_iff.mp hstore
    exact Faithful.insert hcompile (h.pattern_eq before hbefore)

theorem Faithful.perform (h : Faithful options r) (call : Call) :
    Faithful options (r.perform call).2 ∧ (r.perform call).1 = call.direct options.compile := by
  cases call with
  | request source =>
    obtain ⟨hnext, hanswer⟩ := h.request source
    exact ⟨hnext, congrArg Answer.pattern hanswer⟩
  | isMatch source subject =>
    obtain ⟨hnext, hanswer⟩ := h.request source
    refine ⟨hnext, ?_⟩
    simp only [Registry.perform, isMatch, Call.direct, ← hanswer]
    cases (r.request source).1 <;> rfl
  | clear => exact ⟨h.clear, rfl⟩

end

theorem after_faithful (options : RegistryOptions) (calls : List Call) :
    Faithful options (after options calls) := by
  induction calls with
  | nil => exact .new options
  | cons call earlier ih => exact (ih.perform call).1

/-- A source that compiles is served, whatever came before. -/
theorem exists_request_eq_ok {options : RegistryOptions} {source : String}
    (hcompile : (compile options.compile source).isOk) (calls : List Call) :
    ∃ handle, ((after options calls).request source).1 = .ok handle := by
  rw [← ((after_faithful options calls).request source).2] at hcompile
  cases hresult : ((after options calls).request source).1 with
  | error e =>
    rw [hresult] at hcompile
    cases hcompile
  | ok handle => exact ⟨handle, rfl⟩

theorem answers_eq_map (options : RegistryOptions) (calls : List Call) :
    answers options calls = calls.map (Call.direct options.compile) := by
  induction calls with
  | nil => rfl
  | cons call earlier ih =>
    rw [answers, ((after_faithful options earlier).perform call).2, ih, List.map_cons]

/-- Each call to a registry is answered as if there were none: a request with
what its source compiles to, a match with what that pattern says. Registries with
equal limits therefore answer alike, call by call. -/
theorem answers_eq_direct (options : RegistryOptions) (calls : List Call) :
    answers options calls = calls.map (Call.direct options.compile) ∧
      ∀ other : RegistryOptions,
        other.compile.maxPatternLength = options.compile.maxPatternLength →
        other.compile.maxProgramLength = options.compile.maxProgramLength →
        answers other calls = answers options calls := by
  refine ⟨answers_eq_map options calls, ?_⟩
  intro other hpattern hprogram
  have hdirect : Call.direct other.compile = Call.direct options.compile := by
    funext call
    cases call <;> simp only [Call.direct, compile_congr hpattern hprogram]
  rw [answers_eq_map, answers_eq_map, hdirect]

theorem answers_eq_direct_uncached :
    answers { compile := { debugTrace := true }, cachePatterns := false }
        [.request "a", .clear, .isMatch "a+" "aab", .request "(", .request "a+"] =
      answers { cacheCapacity := 1 }
        [.request "a", .clear, .isMatch "a+" "aab", .request "(", .request "a+"] :=
  (answers_eq_direct _ _).2 _ rfl rfl

end Registry

end PatternEngine

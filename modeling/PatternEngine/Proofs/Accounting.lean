import PatternEngine.Proofs.Answers

/-!
# What a registry counts and keeps

With a store, a registry counts each request as a hit or as a miss. A request
that succeeds, found or compiled, is a use of its pattern, and the store keeps
the patterns used last. Main statement: hits, counts, the number of stored
patterns and the identity of handles are decided by the requests since the last
clear, and a request that fails leaves nothing but one more miss.
-/

namespace PatternEngine.Registry

/-! ### Requests of a history -/

abbrev Result := Except CompileError Handle

/-- The requests since the last clear with their results, the latest in front. A
match requests its pattern. -/
def requests (options : RegistryOptions) : List Call → List (String × Result)
  | [] => []
  | call :: earlier =>
    match call with
    | .request source | .isMatch source _ =>
      (source, ((after options earlier).request source).1) :: requests options earlier
    | .clear => []

/-- The handles of all requests, those before a clear included. -/
def handles (options : RegistryOptions) : List Call → List Handle
  | [] => []
  | call :: earlier =>
    match call with
    | .request source | .isMatch source _ =>
      ((after options earlier).request source).1.toOption.toList ++ handles options earlier
    | .clear => handles options earlier

/-- The requests that succeeded. -/
def served (requests : List (String × Result)) : List (String × Handle) :=
  requests.filterMap fun request => request.2.toOption.map (request.1, ·)

/-- The distinct other patterns served since a pattern was, or all of them where
it was not. -/
def othersSince (uses : List (String × Handle)) (source : String) : Finset String :=
  ((uses.map Prod.fst).takeWhile (· != source)).toFinset

/-- A request that is counted as a hit. -/
def Hits (r : Registry) (source : String) : Prop :=
  ∃ stats, r.metrics = some stats ∧ (r.request source).2.metrics = some stats.hit

/-! ### Keys -/

def keyUnder (options : RegistryOptions) (source : String) : CacheKey :=
  ⟨source, options.compile.debugTrace⟩

/-- Handles under the keys of their patterns. -/
def keyed (options : RegistryOptions) (uses : List (String × Handle)) : List (CacheKey × Handle) :=
  uses.map fun use => (keyUnder options use.1, use.2)

theorem keyUnder_injective (options : RegistryOptions) : (keyUnder options).Injective :=
  fun _ _ h => congrArg CacheKey.source h

theorem keyUnder_beq (options : RegistryOptions) (source other : String) :
    (keyUnder options source == keyUnder options other) = (source == other) := by
  rw [Bool.eq_iff_iff, beq_iff_eq, beq_iff_eq, (keyUnder_injective options).eq_iff]

section
variable {options : RegistryOptions} {uses : List (String × Handle)} {source : String}

theorem map_fst_keyed :
    (keyed options uses).map Prod.fst = (uses.map Prod.fst).map (keyUnder options) := by
  simp [keyed]

theorem lookup_keyed : (keyed options uses).lookup (keyUnder options source) =
    uses.lookup source := by
  induction uses with
  | nil => rfl
  | cons use rest ih =>
    rw [keyed, List.map_cons, ← keyed, List.lookup_cons, List.lookup_cons, ih, keyUnder_beq]

theorem card_map_keyUnder (sources : List String) :
    (sources.map (keyUnder options)).toFinset.card = sources.toFinset.card := by
  have himage : (sources.map (keyUnder options)).toFinset =
      sources.toFinset.image (keyUnder options) := by
    ext k
    simp
  rw [himage, Finset.card_image_of_injective _ (keyUnder_injective options)]

theorem takeWhile_map_keyUnder (sources : List String) :
    (sources.map (keyUnder options)).takeWhile (· != keyUnder options source) =
      (sources.takeWhile (· != source)).map (keyUnder options) := by
  have hbne : (· != keyUnder options source) ∘ keyUnder options = (· != source) := by
    funext other
    simp only [Function.comp_apply, bne, keyUnder_beq]
  rw [List.takeWhile_map, hbne]

end

/-! ### What every call keeps -/

/-- A registry whose store has the patterns used last, whose counts add up to its
requests and whose handles all have a number below that of the next one. -/
structure Accounts (options : RegistryOptions) (r : Registry) (store : PatternStore)
    (reqs : List (String × Result)) (past : List Handle) : Prop where
  options_eq : r.options = options
  store_eq : r.store = some store
  capacity_eq : store.cache.capacity = max options.cacheCapacity 1
  tracks : store.cache.Tracks ((keyed options (served reqs)).map Prod.fst)
    (keyed options (served reqs))
  counted : store.stats.hits + store.stats.misses = reqs.length
  served_mem : ∀ use ∈ served reqs, use.2 ∈ past
  fresh : ∀ handle ∈ past, handle.serial < r.compiled

section
variable {options : RegistryOptions} {r : Registry} {store : PatternStore}
  {reqs : List (String × Result)} {past : List Handle} {source : String}

namespace Accounts

theorem key_eq (h : Accounts options r store reqs past) (source : String) :
    r.key source = keyUnder options source := by
  rw [key, h.options_eq]
  rfl

/-- A pattern is found exactly when it is among those used last, and then with
its latest handle. -/
theorem stored?_eq_some (h : Accounts options r store reqs past) {handle : Handle} :
    r.stored? source = some handle ↔ (served reqs).lookup source = some handle ∧
      (othersSince (served reqs) source).card < max options.cacheCapacity 1 := by
  rw [stored?_of_store h.store_eq, h.key_eq, h.tracks.get?_iff, lookup_keyed, map_fst_keyed,
    takeWhile_map_keyUnder, card_map_keyUnder, h.capacity_eq, othersSince]

theorem cachedSize_eq (h : Accounts options r store reqs past) :
    r.cachedSize = min (max options.cacheCapacity 1)
      ((served reqs).map Prod.fst).toFinset.card := by
  rw [cachedSize, h.store_eq]
  simp only [h.tracks.size_eq, map_fst_keyed, card_map_keyUnder, h.capacity_eq]

theorem mem_past_of_stored? (h : Accounts options r store reqs past) {handle : Handle}
    (hstored : r.stored? source = some handle) : handle ∈ past := by
  obtain ⟨hlookup, -⟩ := h.stored?_eq_some.mp hstored
  obtain ⟨before, rest, heq, -⟩ := List.lookup_eq_some_iff.mp hlookup
  exact h.served_mem _ (heq ▸ List.mem_append_right _ (List.mem_cons_self ..))

/-- A request that succeeds puts its pattern in front, found or compiled. -/
theorem use (h : Accounts options r store reqs past) (source : String) {handle : Handle}
    {cache : Cache CacheKey Handle} {stats : CacheStats} {next : Nat}
    (hcapacity : cache.capacity = store.cache.capacity)
    (htracks : cache.Tracks ((keyed options ((source, handle) :: served reqs)).map Prod.fst)
      (keyed options ((source, handle) :: served reqs)))
    (hcounted : stats.hits + stats.misses = reqs.length + 1)
    (hfresh : ∀ other ∈ handle :: past, other.serial < next) :
    Accounts options { r with store := some ⟨cache, stats⟩, compiled := next } ⟨cache, stats⟩
      ((source, .ok handle) :: reqs) (handle :: past) where
  options_eq := h.options_eq
  store_eq := rfl
  capacity_eq := hcapacity.trans h.capacity_eq
  tracks := htracks
  counted := hcounted
  served_mem := by
    intro use huse
    rcases List.mem_cons.mp huse with rfl | huse
    · exact List.mem_cons_self ..
    · exact List.mem_cons_of_mem _ (h.served_mem use huse)
  fresh := hfresh

theorem request (h : Accounts options r store reqs past) (source : String) :
    ∃ next, Accounts options (r.request source).2 next ((source, (r.request source).1) :: reqs)
      ((r.request source).1.toOption.toList ++ past) := by
  have hcounted := h.counted
  have hrequested := requested r source
  generalize r.request source = result at hrequested ⊢
  cases hrequested with
  | hit hstore hstored =>
    cases h.store_eq.symm.trans hstore
    have hpast := h.mem_past_of_stored? hstored
    rw [stored?_of_store hstore] at hstored
    refine ⟨_, h.use source (Cache.capacity_touch ..) ?_ ?_ ?_⟩
    · rw [h.key_eq] at hstored ⊢
      exact h.tracks.touch hstored
    · simp only [CacheStats.hit]
      omega
    · exact List.forall_mem_cons.mpr ⟨h.fresh _ hpast, h.fresh⟩
  | failed hnone hcompile =>
    refine ⟨{ store with stats := store.stats.miss }, h.options_eq, ?_, h.capacity_eq, h.tracks,
      ?_, h.served_mem, h.fresh⟩
    · simp only [h.store_eq, Option.map_some]
    · simp only [CacheStats.miss, List.length_cons]
      omega
  | compiled hnone hcompile =>
    simp only [h.store_eq, Option.map_some]
    refine ⟨_, h.use source (Cache.capacity_insert ..) ?_ ?_ ?_⟩
    · rw [h.key_eq]
      exact h.tracks.insert _ _
    · simp only [CacheStats.miss]
      omega
    · refine List.forall_mem_cons.mpr ⟨Nat.lt_succ_self _, fun other hother => ?_⟩
      exact Nat.lt_succ_of_lt (h.fresh other hother)

theorem clear (h : Accounts options r store reqs past) :
    Accounts options r.clear ⟨store.cache.clear, {}⟩ [] past where
  options_eq := h.options_eq
  store_eq := by simp only [Registry.clear, h.store_eq, Option.map_some]
  capacity_eq := h.capacity_eq
  tracks := h.tracks.clear
  counted := rfl
  served_mem := nofun
  fresh := h.fresh

theorem new (hcache : options.cachePatterns = true) :
    Accounts options (new options) ⟨.empty options.cacheCapacity, {}⟩ [] [] where
  options_eq := rfl
  store_eq := by simp only [Registry.new, hcache, if_true]
  capacity_eq := rfl
  tracks := .empty options.cacheCapacity
  counted := rfl
  served_mem := nofun
  fresh := nofun

/-! ### Counts -/

theorem metrics_request (h : Accounts options r store reqs past) (source : String) :
    (r.request source).2.metrics =
      some (if (r.stored? source).isSome then store.stats.hit else store.stats.miss) := by
  have hrequested := requested r source
  generalize r.request source = result at hrequested ⊢
  cases hrequested with
  | hit hstore hstored =>
    cases h.store_eq.symm.trans hstore
    simp [metrics, hstored]
  | failed hnone | compiled hnone => simp [metrics, hnone, h.store_eq]

theorem hits_iff (h : Accounts options r store reqs past) :
    r.Hits source ↔ ∃ handle, r.stored? source = some handle := by
  have hmetrics : r.metrics = some store.stats := by simp [metrics, h.store_eq]
  have hne : store.stats.miss ≠ store.stats.hit := by
    simp [CacheStats.miss, CacheStats.hit]
  simp only [Hits, hmetrics, h.metrics_request, Option.some.injEq, exists_eq_left',
    ← Option.isSome_iff_exists]
  split <;> simp [*]

/-! ### Results -/

theorem serial_ne_of_not_stored (h : Accounts options r store reqs past) {handle : Handle}
    (hnone : r.stored? source = none) (hok : (r.request source).1 = .ok handle) :
    ∀ earlier ∈ past, earlier.serial ≠ handle.serial := by
  intro earlier hearlier
  have hlt := h.fresh earlier hearlier
  have hrequested := requested r source
  generalize r.request source = result at hrequested hok
  cases hrequested with
  | hit _ hstored => cases hnone.symm.trans hstored
  | failed => cases hok
  | compiled =>
    cases hok
    exact Nat.ne_of_lt hlt

theorem next_of_error (h : Accounts options r store reqs past) {e : CompileError}
    (herror : (r.request source).1 = .error e) :
    (r.request source).2 = { r with store := some { store with stats := store.stats.miss } } := by
  have hrequested := requested r source
  generalize r.request source = result at hrequested herror ⊢
  cases hrequested with
  | failed => simp only [h.store_eq, Option.map_some]
  | hit | compiled => cases herror

end Accounts

end

theorem after_accounts {options : RegistryOptions} (hcache : options.cachePatterns = true)
    (calls : List Call) : ∃ store, Accounts options (after options calls) store
      (requests options calls) (handles options calls) := by
  induction calls with
  | nil => exact ⟨_, .new hcache⟩
  | cons call earlier ih =>
    obtain ⟨store, h⟩ := ih
    cases call with
    | request source | isMatch source _ => exact h.request source
    | clear => exact ⟨_, h.clear⟩

/-- With a store, whatever calls came before: hits and misses add up to the
requests since the last clear, and as many patterns are stored as were served
since then, up to the capacity. A request is a hit exactly when its pattern was
served since the last clear and fewer distinct others than the capacity were
served since it was. A hit returns the handle that was served last. Every other
request is a miss: it returns a handle with a new number, or it fails and leaves
all but the count of misses as it was. -/
theorem request_accounting (options : RegistryOptions) (hcache : options.cachePatterns = true)
    (calls : List Call) : ∃ store, (after options calls).store = some store ∧
      store.stats.hits + store.stats.misses = (requests options calls).length ∧
      (after options calls).cachedSize = min (max options.cacheCapacity 1)
        ((served (requests options calls)).map Prod.fst).toFinset.card ∧
      ∀ source,
        ((after options calls).Hits source ↔
          (∃ handle, (served (requests options calls)).lookup source = some handle) ∧
            (othersSince (served (requests options calls)) source).card <
              max options.cacheCapacity 1) ∧
        ((after options calls).Hits source →
          ∃ handle, (served (requests options calls)).lookup source = some handle ∧
            ((after options calls).request source).1 = .ok handle) ∧
        (¬ (after options calls).Hits source →
          ((after options calls).request source).2.metrics = some store.stats.miss ∧
            ∀ handle, ((after options calls).request source).1 = .ok handle →
              ∀ earlier ∈ handles options calls, earlier.serial ≠ handle.serial) ∧
        ∀ e, ((after options calls).request source).1 = .error e →
          ((after options calls).request source).2 =
            { after options calls with
              store := some { store with stats := store.stats.miss } } := by
  obtain ⟨store, h⟩ := after_accounts hcache calls
  refine ⟨store, h.store_eq, h.counted, h.cachedSize_eq, fun source => ⟨?_, ?_, ?_, ?_⟩⟩
  · simp only [h.hits_iff, h.stored?_eq_some, exists_and_right]
  · intro hhit
    obtain ⟨handle, hstored⟩ := h.hits_iff.mp hhit
    exact ⟨handle, (h.stored?_eq_some.mp hstored).1, request_of_stored? hstored⟩
  · intro hmiss
    have hnone : (after options calls).stored? source = none :=
      Option.eq_none_iff_forall_ne_some.mpr fun handle hstored =>
        hmiss (h.hits_iff.mpr ⟨handle, hstored⟩)
    refine ⟨?_, fun handle hok => h.serial_ne_of_not_stored hnone hok⟩
    rw [h.metrics_request, hnone]
    rfl
  · intro e herror
    exact h.next_of_error herror

def oneSlot : RegistryOptions := { cacheCapacity := 1 }

/-- One pattern is forgotten by a clear, and another is served after it. -/
def clearedHistory : List Call := [.isMatch "b" "b", .clear, .request "a"]

theorem request_accounting_clearedHistory :
    (after oneSlot clearedHistory).Hits "b" ∧ ¬ (after oneSlot clearedHistory).Hits "a" ∧
      (after oneSlot clearedHistory).cachedSize = 1 := by
  obtain ⟨store, -, -, hsize, hrequests⟩ := request_accounting oneSlot rfl clearedHistory
  have hcompile : (compile oneSlot.compile "b").isOk := by cbv
  obtain ⟨handle, hok⟩ := exists_request_eq_ok hcompile [.clear, .request "a"]
  have hserved : served (requests oneSlot clearedHistory) = [("b", handle)] := by
    simp only [clearedHistory, requests, hok]
    rfl
  have hsources : (served (requests oneSlot clearedHistory)).map Prod.fst = ["b"] := by
    rw [hserved]
    rfl
  refine ⟨(hrequests "b").1.mpr ⟨⟨handle, ?_⟩, ?_⟩, ?_, ?_⟩
  · rw [hserved]
    rfl
  · rw [othersSince, hsources]
    decide
  · rw [(hrequests "a").1, hserved]
    rintro ⟨⟨_, hlookup⟩, -⟩
    cases hlookup
  · rw [hsize, hsources]
    decide

end PatternEngine.Registry

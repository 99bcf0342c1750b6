import Mathlib

/-!
# The list of latest uses

Entries stand in the order of their last use, latest in front. A use of a key
brings its entry to the front and drops what no longer fits behind. Main
statements: such a list has the keys whose last uses are the latest, as many as
fit, and under each the value that was put there last.
-/

namespace PatternEngine

/-- Entries with no key twice and no more of them than the capacity. -/
structure RecencyList (κ υ : Type) where
  capacity : Nat
  entries : List (κ × υ)
  capacity_pos : 0 < capacity
  length_le : entries.length ≤ capacity
  nodup : (entries.map Prod.fst).Nodup

namespace RecencyList

variable {κ υ : Type}

def empty (capacity : Nat) : RecencyList κ υ where
  capacity := max capacity 1
  entries := []
  capacity_pos := by omega
  length_le := Nat.zero_le _
  nodup := List.nodup_nil

def size (l : RecencyList κ υ) : Nat := l.entries.length

def clear (l : RecencyList κ υ) : RecencyList κ υ :=
  { l with entries := [], length_le := Nat.zero_le _, nodup := List.nodup_nil }

variable [DecidableEq κ]

/-- The value of a key, without counting as a use of it. -/
def get? (l : RecencyList κ υ) (k : κ) : Option υ := l.entries.lookup k

def isMostRecent (l : RecencyList κ υ) (k : κ) : Bool :=
  (l.entries.map Prod.fst).head? == some k

def others (l : RecencyList κ υ) (k : κ) : List (κ × υ) := l.entries.filter fun e => e.1 != k

def insert (l : RecencyList κ υ) (k : κ) (v : υ) : RecencyList κ υ where
  capacity := l.capacity
  entries := (k, v) :: (l.others k).take (l.capacity - 1)
  capacity_pos := l.capacity_pos
  length_le := by
    have := l.capacity_pos
    simp only [List.length_cons, List.length_take]
    omega
  nodup := by
    rw [List.map_cons, List.nodup_cons]
    constructor
    · simp only [List.mem_map, not_exists, not_and]
      intro e he
      have := List.mem_of_mem_take he
      simp only [others, List.mem_filter, bne_iff_ne] at this
      exact this.2
    · exact l.nodup.sublist (((List.take_sublist _ _).trans List.filter_sublist).map _)

def touch (l : RecencyList κ υ) (k : κ) : RecencyList κ υ :=
  match l.get? k with
  | some v => l.insert k v
  | none => l

section
variable {l : RecencyList κ υ} {k : κ}

theorem get?_eq_some_iff {v : υ} : l.get? k = some v ↔ (k, v) ∈ l.entries := by
  rw [get?, List.lookup_eq_some_iff]
  constructor
  · rintro ⟨before, rest, hentries, -⟩
    rw [hentries]
    exact List.mem_append_right _ (List.mem_cons_self ..)
  · intro h
    obtain ⟨before, rest, hentries⟩ := List.append_of_mem h
    refine ⟨before, rest, hentries, ?_⟩
    intro e he
    have hnodup := l.nodup
    rw [hentries, List.map_append, List.map_cons, List.nodup_append] at hnodup
    rw [bne_iff_ne]
    exact (hnodup.2.2 e.1 (List.mem_map_of_mem he) k (List.mem_cons_self ..)).symm

/-- A key that is present leaves room for itself. -/
theorem entries_insert_of_mem (hk : k ∈ l.entries.map Prod.fst) (v : υ) :
    (l.insert k v).entries = (k, v) :: l.others k := by
  have hshorter : (l.others k).length < l.entries.length := by
    obtain ⟨e, he, rfl⟩ := List.mem_map.mp hk
    exact List.length_filter_lt_length_iff_exists.mpr ⟨e, he, by simp⟩
  have hle := l.length_le
  exact congrArg _ (List.take_of_length_le (by omega))

theorem entries_insert_of_notMem (hk : k ∉ l.entries.map Prod.fst) (v : υ) :
    (l.insert k v).entries = (k, v) :: l.entries.take (l.capacity - 1) := by
  have hothers : l.others k = l.entries := by
    rw [others, List.filter_eq_self]
    intro e he
    rw [bne_iff_ne]
    rintro rfl
    exact hk (List.mem_map_of_mem he)
  exact congrArg (fun others => (k, v) :: others.take (l.capacity - 1)) hothers

end

/-! ### Keys by their last use -/

/-- The keys of a list without repetition, in the order in which they first
occur. -/
def firsts : List κ → List κ
  | [] => []
  | k :: ks => k :: (firsts ks).filter (· != k)

theorem mem_firsts {k : κ} {ks : List κ} : k ∈ firsts ks ↔ k ∈ ks := by
  induction ks with
  | nil => rfl
  | cons a ks ih =>
    by_cases h : k = a
    · simp [firsts, h]
    · simp [firsts, h, ih]

theorem nodup_firsts (ks : List κ) : (firsts ks).Nodup := by
  induction ks with
  | nil => exact List.nodup_nil
  | cons a ks ih =>
    rw [firsts, List.nodup_cons]
    exact ⟨by simp, ih.filter _⟩

theorem length_firsts (ks : List κ) : (firsts ks).length = ks.toFinset.card := by
  have hset : (firsts ks).toFinset = ks.toFinset := by
    ext k
    rw [List.mem_toFinset, List.mem_toFinset, mem_firsts]
  rw [← hset, List.toFinset_card_of_nodup (nodup_firsts ks)]

theorem takeWhile_filter {a k : κ} (h : a ≠ k) (ks : List κ) :
    (ks.filter (· != a)).takeWhile (· != k) = (ks.takeWhile (· != k)).filter (· != a) := by
  induction ks with
  | nil => rfl
  | cons b ks ih =>
    by_cases hba : b = a
    · simp [hba, h, ih]
    · by_cases hbk : b = k
      · simp [hbk, Ne.symm h]
      · simp [hba, hbk, ih]

theorem takeWhile_firsts (k : κ) (ks : List κ) :
    (firsts ks).takeWhile (· != k) = firsts (ks.takeWhile (· != k)) := by
  induction ks with
  | nil => rfl
  | cons a ks ih =>
    by_cases h : a = k
    · simp [firsts, h]
    · simp [firsts, h, takeWhile_filter h, ih]

theorem mem_take_iff {k : κ} {ks : List κ} {n : Nat} :
    k ∈ ks.take n ↔ k ∈ ks ∧ (ks.takeWhile (· != k)).length < n := by
  induction ks generalizing n with
  | nil => simp
  | cons a ks ih =>
    cases n with
    | zero => simp
    | succ n =>
      by_cases h : a = k
      · simp [h]
      · simp [h, Ne.symm h, ih]

theorem filter_ne_of_notMem {k : κ} {ks : List κ} (h : k ∉ ks) : ks.filter (· != k) = ks := by
  rw [List.filter_eq_self]
  rintro b hb
  rw [bne_iff_ne]
  rintro rfl
  exact h hb

theorem take_filter_take {k : κ} {ks : List κ} (h : ks.Nodup) (n : Nat) :
    ((ks.take (n + 1)).filter (· != k)).take n = (ks.filter (· != k)).take n := by
  induction ks generalizing n with
  | nil => simp
  | cons a ks ih =>
    obtain ⟨ha, hks⟩ := List.nodup_cons.mp h
    by_cases hak : a = k
    · subst hak
      have htake : a ∉ ks.take n := fun hmem => ha (List.mem_of_mem_take hmem)
      simp [filter_ne_of_notMem ha, filter_ne_of_notMem htake]
    · cases n with
      | zero => simp
      | succ n => simp [hak, ih hks n]

/-! ### What every operation keeps -/

/-- The entries of a list have the keys used last, as many as fit, and under
each key what was inserted last. -/
structure Tracks (l : RecencyList κ υ) (used : List κ) (inserted : List (κ × υ)) : Prop where
  keys : l.entries.map Prod.fst = (firsts used).take l.capacity
  values : ∀ e ∈ l.entries, inserted.lookup e.1 = some e.2
  mem_used : ∀ k, k ∈ used ↔ (inserted.lookup k).isSome

theorem keys_insert {l : RecencyList κ υ} {used : List κ} (k : κ) (v : υ)
    (h : l.entries.map Prod.fst = (firsts used).take l.capacity) :
    (l.insert k v).entries.map Prod.fst = (firsts (k :: used)).take l.capacity := by
  obtain ⟨n, hn⟩ : ∃ n, l.capacity = n + 1 := Nat.exists_eq_add_one.mpr l.capacity_pos
  have hothers : (l.others k).map Prod.fst = (l.entries.map Prod.fst).filter (· != k) := by
    rw [List.filter_map]
    rfl
  simp only [insert, List.map_cons, List.map_take, hothers, h, hn, Nat.add_sub_cancel, firsts,
    List.take_succ_cons, take_filter_take (nodup_firsts used)]

namespace Tracks

variable {l : RecencyList κ υ} {used : List κ} {inserted : List (κ × υ)}

theorem empty (capacity : Nat) : Tracks (RecencyList.empty capacity : RecencyList κ υ) [] [] where
  keys := List.take_nil.symm
  values := by simp [RecencyList.empty]
  mem_used := by simp

theorem clear (l : RecencyList κ υ) : Tracks l.clear [] [] where
  keys := List.take_nil.symm
  values := by simp [RecencyList.clear]
  mem_used := by simp

/-- A use of a key, with what is inserted under it from now on. -/
theorem use (h : Tracks l used inserted) {k : κ} {v : υ} {more : List (κ × υ)}
    (hk : more.lookup k = some v) (hothers : ∀ j ≠ k, more.lookup j = inserted.lookup j) :
    Tracks (l.insert k v) (k :: used) more where
  keys := keys_insert k v h.keys
  values := by
    intro e he
    rcases List.mem_cons.mp he with rfl | he
    · exact hk
    · obtain ⟨hmem, hne⟩ := List.mem_filter.mp (List.mem_of_mem_take he)
      rw [hothers e.1 (bne_iff_ne.mp hne)]
      exact h.values e hmem
  mem_used := by
    intro j
    by_cases hj : j = k
    · simp [hj, hk]
    · rw [List.mem_cons, or_iff_right hj, h.mem_used, hothers j hj]

theorem insert (h : Tracks l used inserted) (k : κ) (v : υ) :
    Tracks (l.insert k v) (k :: used) ((k, v) :: inserted) := by
  refine h.use List.lookup_cons_self ?_
  intro j hj
  rw [List.lookup_cons, beq_false_of_ne hj]

theorem touch (h : Tracks l used inserted) (k : κ) :
    Tracks (l.touch k) (if (l.get? k).isSome then k :: used else used) inserted := by
  unfold RecencyList.touch
  cases hget : l.get? k with
  | none => exact h
  | some v => exact h.use (h.values _ (get?_eq_some_iff.mp hget)) fun _ _ => rfl

theorem get?_iff (h : Tracks l used inserted) {k : κ} {v : υ} :
    l.get? k = some v ↔ inserted.lookup k = some v ∧
      (used.takeWhile (· != k)).toFinset.card < l.capacity := by
  have hpresent : (∃ w, (k, w) ∈ l.entries) ↔
      k ∈ used ∧ (used.takeWhile (· != k)).toFinset.card < l.capacity := by
    have hmem : k ∈ l.entries.map Prod.fst ↔
        k ∈ firsts used ∧ ((firsts used).takeWhile (· != k)).length < l.capacity := by
      rw [h.keys, mem_take_iff]
    rw [takeWhile_firsts, length_firsts, mem_firsts] at hmem
    simpa using hmem
  rw [get?_eq_some_iff]
  constructor
  · intro hv
    exact ⟨h.values _ hv, (hpresent.mp ⟨v, hv⟩).2⟩
  · rintro ⟨hv, hcard⟩
    have hused : k ∈ used := by rw [h.mem_used, hv]; rfl
    obtain ⟨w, hw⟩ := hpresent.mpr ⟨hused, hcard⟩
    cases hv.symm.trans (h.values _ hw)
    exact hw

theorem isMostRecent_iff (h : Tracks l used inserted) {k : κ} :
    l.isMostRecent k = true ↔ used.head? = some k := by
  have hfirst : (firsts used).head? = used.head? := by cases used <;> rfl
  rw [isMostRecent, beq_iff_eq, h.keys, List.head?_take, if_neg l.capacity_pos.ne', hfirst]

theorem size_eq (h : Tracks l used inserted) :
    l.size = min l.capacity (inserted.map Prod.fst).toFinset.card := by
  have hset : used.toFinset = (inserted.map Prod.fst).toFinset := by
    ext k
    rw [List.mem_toFinset, List.mem_toFinset, h.mem_used, List.lookup_isSome_iff, List.mem_map]
    simp only [beq_iff_eq, eq_comm (a := k)]
  have hlength := congrArg List.length h.keys
  rw [List.length_map, List.length_take, length_firsts, hset] at hlength
  exact hlength

end Tracks

end RecencyList

end PatternEngine

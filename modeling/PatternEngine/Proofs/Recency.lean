import PatternEngine.Cache
import PatternEngine.Proofs.RecencyList

/-!
# What a store keeps

The operations of a store change its map and its queue in different ways. A touch
moves nothing when its key is in front, an insertion of a present key sets a value
and moves the key, and one of a new key may first drop the key at the end. The
two always agree, and together they are a list of latest uses.

An insertion is a use of its key, and so is a touch of a key that is present.
Main statement: whatever operations a store went through, it finds a key exactly
when the key was inserted since the last clear and fewer other keys than the
capacity were used since its own last use, and it finds the value that was
inserted last.
-/

namespace PatternEngine

variable {κ υ : Type} [DecidableEq κ]

/-! ### Histories -/

inductive Cache.Op (κ υ : Type) where
  | insert (k : κ) (v : υ)
  | touch (k : κ)
  | peek (k : κ)
  | isMostRecent (k : κ)
  | clear
  deriving Repr

namespace RecencyList

def apply (l : RecencyList κ υ) : Cache.Op κ υ → RecencyList κ υ
  | .insert k v => l.insert k v
  | .touch k => l.touch k
  | .peek _ | .isMostRecent _ => l
  | .clear => l.clear

/-- The list after some operations, the latest in front. -/
def after (capacity : Nat) : List (Cache.Op κ υ) → RecencyList κ υ
  | [] => empty capacity
  | op :: earlier => (after capacity earlier).apply op

theorem capacity_apply (l : RecencyList κ υ) (op : Cache.Op κ υ) :
    (l.apply op).capacity = l.capacity := by
  cases op with
  | touch k =>
    simp only [apply, touch]
    split <;> rfl
  | insert | peek | isMostRecent | clear => rfl

theorem capacity_after (capacity : Nat) (ops : List (Cache.Op κ υ)) :
    (after capacity ops).capacity = max capacity 1 := by
  induction ops with
  | nil => rfl
  | cons op earlier ih => exact (capacity_apply _ op).trans ih

end RecencyList

namespace Cache

variable [Hashable κ]

def apply (c : Cache κ υ) : Op κ υ → Cache κ υ
  | .insert k v => c.insert k v
  | .touch k => c.touch k
  | .peek _ | .isMostRecent _ => c
  | .clear => c.clear

/-- The store after the same operations. -/
def after (capacity : Nat) : List (Op κ υ) → Cache κ υ
  | [] => empty capacity
  | op :: earlier => (after capacity earlier).apply op

/-- The keys used since the last clear, the latest in front. A touch counts
where its key was present. -/
def uses (capacity : Nat) : List (Op κ υ) → List κ
  | [] => []
  | op :: earlier =>
    match op with
    | .insert k _ => k :: uses capacity earlier
    | .touch k =>
      if ((after capacity earlier).get? k).isSome then k :: uses capacity earlier
      else uses capacity earlier
    | .peek _ | .isMostRecent _ => uses capacity earlier
    | .clear => []

/-- What was inserted since the last clear, the latest in front. -/
def inserts : List (Op κ υ) → List (κ × υ)
  | [] => []
  | op :: earlier =>
    match op with
    | .insert k v => (k, v) :: inserts earlier
    | .touch _ | .peek _ | .isMostRecent _ => inserts earlier
    | .clear => []

section
variable {c : Cache κ υ} {k : κ}

/-! ### Moves in the queue -/

/-- A key that is in front is where a touch would bring it. -/
theorem touch_of_isMostRecent (h : c.isMostRecent k) : c.touch k = c := by simp [touch, h]

theorem ite_isMostRecent_touch (c : Cache κ υ) (k : κ) :
    (if c.isMostRecent k then c else c.touch k) = c.touch k := by
  split
  · next hfront => exact (touch_of_isMostRecent hfront).symm
  · rfl

theorem touch_of_contains (h : c.map.contains k) : c.touch k = c.promote k := by
  cases hfront : c.isMostRecent k with
  | true => rw [touch_of_isMostRecent hfront, promote, if_pos hfront]
  | false => simp [touch, h, hfront]

theorem touch_of_not_contains (h : ¬ c.map.contains k) : c.touch k = c := by simp [touch, h]

/-- In front or not, a key ends up before the others. -/
theorem order_promote (c : Cache κ υ) (k : κ) :
    (c.promote k).order = k :: c.order.erase k := by
  unfold promote
  split
  · next hfront =>
    obtain ⟨rest, horder⟩ : ∃ rest, c.order = k :: rest := by
      simpa [isMostRecent, List.head?_eq_some_iff] using hfront
    rw [horder, List.erase_cons_head]
  · rfl

@[simp]
theorem map_promote (c : Cache κ υ) (k : κ) : (c.promote k).map = c.map := by
  unfold promote
  split <;> rfl

@[simp]
theorem capacity_promote (c : Cache κ υ) (k : κ) : (c.promote k).capacity = c.capacity := by
  unfold promote
  split <;> rfl

@[simp]
theorem capacity_makeRoom (c : Cache κ υ) : c.makeRoom.capacity = c.capacity := by
  unfold makeRoom dropOldest
  split
  · split <;> rfl
  · rfl

@[simp]
theorem capacity_insert (c : Cache κ υ) (k : κ) (v : υ) :
    (c.insert k v).capacity = c.capacity := by
  unfold insert
  split
  · exact capacity_promote ..
  · exact capacity_makeRoom c

@[simp]
theorem capacity_touch (c : Cache κ υ) (k : κ) : (c.touch k).capacity = c.capacity := by
  unfold touch
  split
  · exact capacity_promote ..
  · rfl

/-! ### Lookups -/

theorem contains_iff : c.map.contains k ↔ ∃ v, c.get? k = some v := by
  rw [Std.HashMap.contains_eq_isSome_getElem?, Option.isSome_iff_exists]
  rfl

@[simp]
theorem get?_empty (capacity : Nat) (k : κ) : (empty capacity : Cache κ υ).get? k = none :=
  Std.HashMap.getElem?_empty

@[simp]
theorem get?_clear (c : Cache κ υ) (k : κ) : c.clear.get? k = none := Std.HashMap.getElem?_empty

@[simp]
theorem get?_touch (c : Cache κ υ) (k j : κ) : (c.touch k).get? j = c.get? j := by
  unfold touch
  split
  · rw [get?, map_promote, get?]
  · rfl

theorem get?_of_dropOldest {v : υ} (h : c.dropOldest.get? k = some v) : c.get? k = some v := by
  unfold dropOldest at h
  split at h
  · rw [get?, Std.HashMap.getElem?_erase] at h
    split at h
    · cases h
    · exact h
  · exact h

theorem get?_of_makeRoom {v : υ} (h : c.makeRoom.get? k = some v) : c.get? k = some v := by
  unfold makeRoom at h
  split at h
  · exact get?_of_dropOldest h
  · exact h

/-- What is found after an insertion is what was inserted or was found before. -/
theorem get?_of_insert {j : κ} {v w : υ} (h : (c.insert k v).get? j = some w) :
    (j = k ∧ w = v) ∨ c.get? j = some w := by
  have hput : ∀ m : Std.HashMap κ υ, (m.insert k v)[j]? = some w →
      (j = k ∧ w = v) ∨ m[j]? = some w := by
    intro m hm
    rw [Std.HashMap.getElem?_insert] at hm
    split at hm
    · next hj => exact .inl ⟨(eq_of_beq hj).symm, (Option.some.inj hm).symm⟩
    · exact .inr hm
  unfold insert at h
  split at h
  · rw [get?, map_promote] at h
    exact hput _ h
  · exact (hput _ h).imp_right get?_of_makeRoom

/-! ### Map and queue -/

/-- The queue has the keys of the map, each once and no more of them than the
capacity. -/
structure Agrees (c : Cache κ υ) : Prop where
  nodup : c.order.Nodup
  length_le : c.order.length ≤ c.capacity
  mem_order_iff : ∀ k, k ∈ c.order ↔ k ∈ c.map

theorem Agrees.size_eq (h : c.Agrees) : c.size = c.order.length := by
  have hperm : c.map.keys.Perm c.order := by
    rw [List.perm_ext_iff_of_nodup c.map.nodup_keys h.nodup]
    intro k
    rw [Std.HashMap.mem_keys, h.mem_order_iff]
  rw [size, ← Std.HashMap.length_keys, hperm.length_eq]

/-- The map and the queue hold some entries, in the order of the queue. -/
structure Holds (c : Cache κ υ) (entries : List (κ × υ)) : Prop where
  order_eq : c.order = entries.map Prod.fst
  get?_iff : ∀ k v, c.get? k = some v ↔ (k, v) ∈ entries

namespace Holds

variable {entries : List (κ × υ)} {v : υ}

theorem empty (capacity : Nat) : (Cache.empty capacity : Cache κ υ).Holds [] where
  order_eq := rfl
  get?_iff := by simp

theorem clear (c : Cache κ υ) : c.clear.Holds [] where
  order_eq := rfl
  get?_iff := by simp

theorem contains_iff (h : c.Holds entries) : c.map.contains k ↔ k ∈ entries.map Prod.fst := by
  simp only [Cache.contains_iff, h.get?_iff, List.mem_map, Prod.exists, exists_and_right,
    exists_eq_right]

theorem get?_eq_none (h : c.Holds entries) (hk : k ∉ entries.map Prod.fst) :
    c.get? k = none := by
  rw [Option.eq_none_iff_forall_ne_some]
  intro v hv
  exact hk (List.mem_map_of_mem ((h.get?_iff k v).mp hv))

/-- A move to the front, with a value for the key that is moved. A touch sets the
value that is there. -/
theorem promote (h : c.Holds entries) (hnodup : (entries.map Prod.fst).Nodup)
    {m : Std.HashMap κ υ} (hm : ∀ j, m[j]? = if k = j then some v else c.map[j]?) :
    ({ c with map := m }.promote k).Holds ((k, v) :: entries.filter fun e => e.1 != k) where
  order_eq := by
    rw [order_promote, List.map_cons, h.order_eq, hnodup.erase_eq_filter, List.filter_map]
    rfl
  get?_iff := by
    intro j w
    rw [get?, map_promote, hm]
    by_cases hj : k = j
    · simp [hj, eq_comm]
    · rw [if_neg hj, ← get?, h.get?_iff]
      simp [Ne.symm hj]

theorem dropOldest {init : List (κ × υ)} {oldest : κ × υ} (h : c.Holds (init ++ [oldest]))
    (hnodup : ((init ++ [oldest]).map Prod.fst).Nodup) : c.dropOldest.Holds init := by
  have horder : c.order = init.map Prod.fst ++ [oldest.1] := by
    rw [h.order_eq, List.map_append]
    rfl
  have hdrop : c.dropOldest =
      { c with map := c.map.erase oldest.1, order := init.map Prod.fst } := by
    simp [Cache.dropOldest, horder]
  rw [List.map_append, List.nodup_append] at hnodup
  rw [hdrop]
  refine ⟨rfl, fun j w => ?_⟩
  rw [get?, Std.HashMap.getElem?_erase]
  split
  · next hj =>
    rw [beq_iff_eq] at hj
    subst hj
    simp only [reduceCtorEq, false_iff]
    intro hmem
    exact hnodup.2.2 _ (List.mem_map_of_mem hmem) _ (List.mem_singleton_self _) rfl
  · next hj =>
    rw [← get?, h.get?_iff, List.mem_append, or_iff_left]
    intro hmem
    cases List.mem_singleton.mp hmem
    exact hj (beq_self_eq_true _)

theorem makeRoom {l : RecencyList κ υ} (h : c.Holds l.entries)
    (hcapacity : c.capacity = l.capacity) :
    c.makeRoom.Holds (l.entries.take (l.capacity - 1)) := by
  have hlength : c.order.length = l.entries.length := by rw [h.order_eq, List.length_map]
  have hpos := l.capacity_pos
  have hle := l.length_le
  unfold Cache.makeRoom
  rw [hlength, hcapacity]
  split
  · next hfull =>
    obtain ⟨init, oldest, hentries⟩ : ∃ init oldest, l.entries = init ++ [oldest] :=
      List.eq_nil_or_concat' _ |>.resolve_left (List.ne_nil_of_length_pos (by omega))
    have hnodup := l.nodup
    rw [hentries] at h hnodup
    rw [← hfull, ← List.dropLast_eq_take, hentries, List.dropLast_concat]
    exact h.dropOldest hnodup
  · rw [List.take_of_length_le (by omega)]
    exact h

theorem pushFront (h : c.Holds entries) (hk : k ∉ entries.map Prod.fst) (v : υ) :
    (c.pushFront k v).Holds ((k, v) :: entries) where
  order_eq := by rw [Cache.pushFront, List.map_cons, h.order_eq]
  get?_iff := by
    intro j w
    rw [get?, Cache.pushFront, Std.HashMap.getElem?_insert, List.mem_cons, ← h.get?_iff]
    by_cases hj : k = j
    · subst hj
      simp [h.get?_eq_none hk, eq_comm]
    · simp [get?, hj, Ne.symm hj]

end Holds

/-- A store with the entries and the capacity of a list. -/
structure Refines (c : Cache κ υ) (l : RecencyList κ υ) : Prop where
  capacity_eq : c.capacity = l.capacity
  holds : c.Holds l.entries

namespace Refines

variable {l : RecencyList κ υ}

theorem get?_eq (h : c.Refines l) (k : κ) : c.get? k = l.get? k := by
  ext v
  rw [h.holds.get?_iff, RecencyList.get?_eq_some_iff]

theorem isMostRecent_eq (h : c.Refines l) (k : κ) : c.isMostRecent k = l.isMostRecent k := by
  rw [isMostRecent, h.holds.order_eq, RecencyList.isMostRecent]

theorem agrees (h : c.Refines l) : c.Agrees where
  nodup := by
    rw [h.holds.order_eq]
    exact l.nodup
  length_le := by
    rw [h.holds.order_eq, List.length_map, h.capacity_eq]
    exact l.length_le
  mem_order_iff := by
    intro k
    rw [h.holds.order_eq, ← h.holds.contains_iff, Std.HashMap.mem_iff_contains]

theorem size_eq (h : c.Refines l) : c.size = l.size := by
  rw [h.agrees.size_eq, h.holds.order_eq, List.length_map, RecencyList.size]

theorem empty (capacity : Nat) :
    (Cache.empty capacity : Cache κ υ).Refines (RecencyList.empty capacity) :=
  ⟨rfl, .empty capacity⟩

theorem clear (h : c.Refines l) : c.clear.Refines l.clear := ⟨h.capacity_eq, .clear c⟩

theorem insert (h : c.Refines l) (k : κ) (v : υ) : (c.insert k v).Refines (l.insert k v) := by
  refine ⟨(capacity_insert ..).trans h.capacity_eq, ?_⟩
  by_cases hk : k ∈ l.entries.map Prod.fst
  · rw [Cache.insert, if_pos (h.holds.contains_iff.mpr hk), RecencyList.entries_insert_of_mem hk]
    refine h.holds.promote l.nodup fun j => ?_
    simp only [Std.HashMap.getElem?_insert, beq_iff_eq]
  · rw [Cache.insert, if_neg fun hc => hk (h.holds.contains_iff.mp hc),
      RecencyList.entries_insert_of_notMem hk]
    refine (h.holds.makeRoom h.capacity_eq).pushFront ?_ v
    rw [List.map_take]
    exact fun hmem => hk (List.mem_of_mem_take hmem)

theorem touch (h : c.Refines l) (k : κ) : (c.touch k).Refines (l.touch k) := by
  unfold RecencyList.touch
  cases hget : l.get? k with
  | none =>
    have hnone : ¬ c.map.contains k := by
      rw [contains_iff, h.get?_eq, hget]
      exact nofun
    rw [touch_of_not_contains hnone]
    exact h
  | some v =>
    have hstored : c.get? k = some v := (h.get?_eq k).trans hget
    rw [touch_of_contains (contains_iff.mpr ⟨v, hstored⟩)]
    refine ⟨(capacity_promote ..).trans h.capacity_eq, ?_⟩
    rw [RecencyList.entries_insert_of_mem]
    · refine h.holds.promote l.nodup fun j => ?_
      split
      · next hj => rw [← hj]; exact hstored
      · rfl
    · exact List.mem_map_of_mem (RecencyList.get?_eq_some_iff.mp hget)

theorem apply (h : c.Refines l) (op : Op κ υ) : (c.apply op).Refines (l.apply op) := by
  cases op with
  | insert k v => exact h.insert k v
  | touch k => exact h.touch k
  | peek | isMostRecent => exact h
  | clear => exact h.clear

end Refines

/-! ### What a history keeps -/

/-- A store with the entries of a list that has the keys used last. -/
def Tracks (c : Cache κ υ) (used : List κ) (inserted : List (κ × υ)) : Prop :=
  ∃ l : RecencyList κ υ, c.Refines l ∧ l.Tracks used inserted

namespace Tracks

variable {used : List κ} {inserted : List (κ × υ)} {v : υ}

theorem empty (capacity : Nat) : (Cache.empty capacity : Cache κ υ).Tracks [] [] :=
  ⟨_, .empty capacity, .empty capacity⟩

theorem clear (h : c.Tracks used inserted) : c.clear.Tracks [] [] := by
  obtain ⟨l, hrefines, -⟩ := h
  exact ⟨_, hrefines.clear, .clear l⟩

theorem insert (h : c.Tracks used inserted) (k : κ) (v : υ) :
    (c.insert k v).Tracks (k :: used) ((k, v) :: inserted) := by
  obtain ⟨l, hrefines, htracks⟩ := h
  exact ⟨_, hrefines.insert k v, htracks.insert k v⟩

/-- A touch of a key that is found is an insertion of what is found. -/
theorem touch (h : c.Tracks used inserted) (hfound : c.get? k = some v) :
    (c.touch k).Tracks (k :: used) ((k, v) :: inserted) := by
  obtain ⟨l, hrefines, htracks⟩ := h
  have htouch : l.touch k = l.insert k v := by
    rw [RecencyList.touch, ← hrefines.get?_eq, hfound]
  refine ⟨l.insert k v, ?_, htracks.insert k v⟩
  rw [← htouch]
  exact hrefines.touch k

theorem get?_iff (h : c.Tracks used inserted) :
    c.get? k = some v ↔ inserted.lookup k = some v ∧
      (used.takeWhile (· != k)).toFinset.card < c.capacity := by
  obtain ⟨l, hrefines, htracks⟩ := h
  rw [hrefines.get?_eq, htracks.get?_iff, hrefines.capacity_eq]

theorem isMostRecent_iff (h : c.Tracks used inserted) :
    c.isMostRecent k = true ↔ used.head? = some k := by
  obtain ⟨l, hrefines, htracks⟩ := h
  rw [hrefines.isMostRecent_eq, htracks.isMostRecent_iff]

theorem size_eq (h : c.Tracks used inserted) :
    c.size = min c.capacity (inserted.map Prod.fst).toFinset.card := by
  obtain ⟨l, hrefines, htracks⟩ := h
  rw [hrefines.size_eq, htracks.size_eq, hrefines.capacity_eq]

end Tracks

end

/-- A store goes through the same entries in the same order as the list does. -/
theorem after_refines (capacity : Nat) (ops : List (Op κ υ)) :
    (after capacity ops).Refines (RecencyList.after capacity ops) := by
  induction ops with
  | nil => exact .empty capacity
  | cons op earlier ih => exact ih.apply op

/-- Map and queue agree after any operations. -/
theorem after_agrees (capacity : Nat) (ops : List (Op κ υ)) : (after capacity ops).Agrees :=
  (after_refines capacity ops).agrees

theorem capacity_after (capacity : Nat) (ops : List (Op κ υ)) :
    (after capacity ops).capacity = max capacity 1 :=
  (after_refines capacity ops).capacity_eq.trans (RecencyList.capacity_after capacity ops)

theorem after_tracks (capacity : Nat) (ops : List (Op κ υ)) :
    (RecencyList.after capacity ops).Tracks (uses capacity ops) (inserts ops) := by
  induction ops with
  | nil => exact .empty capacity
  | cons op earlier ih =>
    cases op with
    | insert k v => exact ih.insert k v
    | touch k =>
      rw [uses, (after_refines capacity earlier).get?_eq]
      exact ih.touch k
    | peek | isMostRecent => exact ih
    | clear => exact .clear _

/-- After any operations a key is found exactly when it was inserted since the
last clear and fewer distinct other keys than the capacity were used since its
last use; its value is then the one inserted last. The most recent key is the
one used last, and there are as many entries as keys were inserted, up to the
capacity. -/
theorem after_holds_latest_uses (capacity : Nat) (ops : List (Op κ υ)) :
    (∀ k v, (after capacity ops).get? k = some v ↔
      (inserts ops).lookup k = some v ∧
        ((uses capacity ops).takeWhile (· != k)).toFinset.card < max capacity 1) ∧
      (∀ k, (after capacity ops).isMostRecent k = true ↔ (uses capacity ops).head? = some k) ∧
      (after capacity ops).size =
        min (max capacity 1) ((inserts ops).map Prod.fst).toFinset.card := by
  have h : (after capacity ops).Tracks (uses capacity ops) (inserts ops) :=
    ⟨_, after_refines capacity ops, after_tracks capacity ops⟩
  rw [← capacity_after capacity ops]
  exact ⟨fun _ _ => h.get?_iff, fun _ => h.isMostRecent_iff, h.size_eq⟩

-- The touch of the first key makes the second one the next to go.
example : (after 2 [.insert 3 'c', .touch 1, .insert 2 'b', .insert 1 'a']).order = [3, 1] :=
  (after_refines _ _).holds.order_eq.trans (by decide)

end Cache

end PatternEngine

import PatternEngine.Proofs.Simulation

/-!
# Tests on the byte under the cursor

The tests of a class leave the flag set exactly when the byte under the cursor
belongs to the class, whatever the flag was and wherever the tests stand.
-/

namespace PatternEngine
open Machine

def Code.Tests (c : Code) (subject : Array UInt8) (holds : UInt8 → Bool) : Prop :=
  ∀ ⦃code : Array UInt8⦄ ⦃failAt pc : Nat⦄, c.StandsAt code failAt pc →
    ∀ ⦃i : Nat⦄, i ≤ subject.size → ∀ flag,
      Path code subject ⟨pc, i, flag⟩ ⟨pc + c.size, i, subject[i]?.any holds⟩

variable {subject : Array UInt8}

theorem Code.plain_tests {t : Instruction} {holds : UInt8 → Bool} (h : byteTest? t = some holds) :
    (Code.plain t).Tests subject holds := fun _ _ _ hstands _ hi _ => path_test h hstands hi

theorem Fragment.oneByte_runs {tests : Code} {holds : UInt8 → Bool}
    (h : tests.Tests subject holds) :
    (Fragment.oneByte tests).code.Runs subject (Outcome.oneByte subject holds) := by
  intro code failAt pc hstands i hi flag
  obtain ⟨htests, hmove⟩ := Code.standsAt_append.mp hstands
  have hpath := (h htests hi flag).trans (path_plain hmove hi rfl)
  unfold Outcome.oneByte
  split
  · rename_i hb
    obtain ⟨b, hget, -⟩ := (Option.any_eq_true _ _).mp hb
    have hlt := (Array.getElem?_eq_some_iff.mp hget).1
    simp only [hb] at hpath
    exact ⟨hlt, hpath⟩
  · rename_i hb
    simp only [hb] at hpath
    exact hpath

/-! ### Chains of tests -/

theorem ByteRange.contains_iff {r : ByteRange} {b : UInt8} :
    r.contains b = true ↔ r.lo ≤ b ∧ b ≤ r.hi := by
  simp [contains]

theorem ByteRange.byteTest?_test (r : ByteRange) : byteTest? r.test = some r.contains := by
  have hcontains : r.contains = fun b => decide (r.lo ≤ b) && decide (b ≤ r.hi) := rfl
  have hsingle : r.lo = r.hi → (fun b => b == r.lo) = r.contains := by
    intro h
    funext b
    rw [Bool.eq_iff_iff, contains_iff, beq_iff_eq, ← h]
    exact ⟨fun hb => hb ▸ ⟨UInt8.le_refl _, UInt8.le_refl _⟩, fun hb => UInt8.le_antisymm hb.2 hb.1⟩
  unfold test
  split_ifs with h₁ h₂ h₃ h₄
  · rw [hcontains, h₁.1, h₁.2]
    rfl
  · rw [hcontains, h₂.1, h₂.2]
    rfl
  · rw [hcontains, h₃.1, h₃.2]
    rfl
  · exact congrArg some (hsingle h₄)
  · rfl

theorem Code.chain_cons (settled : Bool) (t : Instruction) (ts : List Instruction) :
    Code.chain settled (t :: ts) =
      if (Code.chain settled ts).size = 0 then .plain t
      else .plain t ++ (.piece (.jumpIf settled (Code.chain settled ts).size) ++
        Code.chain settled ts) := rfl

theorem Code.chain_size_eq_zero {settled : Bool} {ts : List Instruction} :
    (Code.chain settled ts).size = 0 ↔ ts = [] := by
  cases ts with
  | nil => exact ⟨fun _ => rfl, fun _ => rfl⟩
  | cons t ts =>
    have hpos : 0 < (Code.plain t).size := t.width_pos
    rw [Code.chain_cons]
    split
    · simp only [reduceCtorEq, iff_false]
      omega
    · simp only [Code.size_append, reduceCtorEq, iff_false]
      omega

/-- What tests come to when the first that agrees with `settled` decides. -/
def Settles (settled : Bool) (tests : List (UInt8 → Bool)) (b : UInt8) : Bool :=
  if settled then tests.any (· b) else tests.all (· b)

theorem any_settles_of_eq {settled : Bool} {g : UInt8 → Bool} {gs : List (UInt8 → Bool)}
    {o : Option UInt8} (h : o.any g = settled) : o.any (Settles settled (g :: gs)) = settled := by
  cases o with
  | none => exact h
  | some b =>
    have hb : g b = settled := h
    cases settled <;> simp [Settles, hb]

theorem any_settles_of_ne {settled : Bool} {g : UInt8 → Bool} {gs : List (UInt8 → Bool)}
    {o : Option UInt8} (h : o.any g ≠ settled) :
    o.any (Settles settled (g :: gs)) = o.any (Settles settled gs) := by
  cases o with
  | none => rfl
  | some b =>
    have hb : g b = !settled := Bool.eq_not.mpr h
    cases settled <;> simp [Settles, hb]

theorem Code.chain_tests {settled : Bool} {test : ByteRange → Instruction}
    {f : ByteRange → UInt8 → Bool} (h : ∀ r, byteTest? (test r) = some (f r)) (r : ByteRange)
    (rs : List ByteRange) : (Code.chain settled ((r :: rs).map test)).Tests subject
      (Settles settled ((r :: rs).map f)) := by
  induction rs generalizing r with
  | nil =>
    have hlast : Settles settled [f r] = f r := by
      funext b
      cases settled <;> simp [Settles]
    rw [List.map_singleton, List.map_singleton, hlast, chain_cons,
      if_pos (chain_size_eq_zero.mpr rfl)]
    exact plain_tests (h r)
  | cons u us ih =>
    intro code failAt pc hstands i hi flag
    rw [List.map_cons, chain_cons, if_neg (by simp [chain_size_eq_zero])] at hstands ⊢
    obtain ⟨htest, hmore⟩ := standsAt_append.mp hstands
    obtain ⟨hjump, hlater⟩ := standsAt_append.mp hmore
    have hfirst := plain_tests (h r) htest hi flag
    rw [List.map_cons (f := f), size_append, size_append, ← Nat.add_assoc, ← Nat.add_assoc]
    by_cases hsettled : subject[i]?.any (f r) = settled
    · rw [any_settles_of_eq hsettled]
      rw [hsettled] at hfirst
      exact hfirst.trans (path_jump hjump hi)
    · rw [any_settles_of_ne hsettled]
      exact hfirst.trans ((path_no_jump hjump hsettled hi).trans (ih u hlater hi _))

theorem CharClass.tests_tests (c : CharClass) : c.tests.Tests subject c.contains := by
  obtain ⟨negated, items, hne⟩ := c
  obtain ⟨r, rs, rfl⟩ := List.exists_cons_of_ne_nil hne
  cases negated with
  | false =>
    have hcontains : CharClass.contains ⟨false, r :: rs, hne⟩ =
        Settles true ((r :: rs).map ByteRange.contains) := by
      funext b
      simp [contains, Settles, List.any_map, Function.comp_def]
    rw [hcontains]
    exact Code.chain_tests ByteRange.byteTest?_test r rs
  | true =>
    have hoff : ∀ r : ByteRange, byteTest? (.testNegatedRange r.lo r.hi) =
        some fun b => !r.contains b := by
      intro r
      refine congrArg some (funext fun b => ?_)
      rw [Bool.eq_iff_iff, Bool.not_eq_true', ← Bool.not_eq_true, ByteRange.contains_iff]
      simp only [Bool.or_eq_true, decide_eq_true_eq, ← UInt8.not_le]
      tauto
    have hcontains : CharClass.contains ⟨true, r :: rs, hne⟩ =
        Settles false ((r :: rs).map fun r b => !r.contains b) := by
      funext b
      simp [contains, Settles, List.any_eq_not_all_not, Function.comp_def]
    rw [hcontains]
    exact Code.chain_tests hoff r rs

end PatternEngine

import PatternEngine.Machine
import PatternEngine.Proofs.Placement

/-!
# Paths of the machine

A path is a sequence of steps between sound states: on an instruction boundary,
with the cursor inside the subject or at its end. The machine is deterministic,
so a path that ends in a stop holds every state the machine reaches, visits no
state twice, and is therefore shorter than the number of sound states.
-/

namespace PatternEngine.Machine

/-- A state on an instruction boundary with the cursor not past the subject. -/
structure State.Sound (code subject : Array UInt8) (s : State) : Prop where
  boundary : Boundary code s.pc
  cursor_le : s.cursor ≤ subject.size

def Advances (code subject : Array UInt8) (s t : State) : Prop :=
  s.Sound code subject ∧ step code subject s = .next t

def Path (code subject : Array UInt8) : State → State → Prop :=
  Relation.ReflTransGen (Advances code subject)

/-- What the machine comes to on a subject. -/
def Reached (code subject : Array UInt8) : State → Prop :=
  Relation.ReflTransGen (fun s t => step code subject s = .next t) {}

/-- The machine stops after finitely many steps. -/
def Halts (code subject : Array UInt8) : Prop := ∃ n, run code subject n {} ≠ .unfinished

section
variable {code subject : Array UInt8} {s t u : State} {v : Verdict}

theorem step_of_decode {i : Instruction} (h : Instruction.decode code s.pc = .ok i) :
    step code subject s = s.perform subject i := by
  rw [step, if_pos (Instruction.lt_size_of_decode h), h]

theorem perform_jumpPos (s : State) (distance : Int32) :
    s.perform subject (.jumpPos distance) =
      (displace s.cursor distance).elim (.stop (.faulted s.pc (.rewindBeforeStart distance)))
        fun moved => .next { s with pc := s.pc + jumpWidth, cursor := moved } := by
  generalize hmoved : displace s.cursor distance = moved
  unfold State.perform
  simp only [hmoved]
  cases moved <;> rfl

theorem exists_decode_of_step (h : step code subject s = .next t) :
    ∃ i, Instruction.decode code s.pc = .ok i := by
  unfold step at h
  split at h
  · split at h
    · exact ⟨_, ‹_›⟩
    · cases h
  · cases h

theorem lt_size_of_step (h : step code subject s = .next t) : s.pc < code.size := by
  obtain ⟨i, hi⟩ := exists_decode_of_step h
  exact Instruction.lt_size_of_decode hi

theorem Path.single {pc i : Nat} {flag : Bool} (hpc : Boundary code pc) (hi : i ≤ subject.size)
    (h : step code subject ⟨pc, i, flag⟩ = .next t) : Path code subject ⟨pc, i, flag⟩ t :=
  Relation.ReflTransGen.single ⟨⟨hpc, hi⟩, h⟩

theorem Path.trans (h₁ : Path code subject s t) (h₂ : Path code subject t u) :
    Path code subject s u := Relation.ReflTransGen.trans h₁ h₂

/-! ### Stops -/

theorem Path.of_reached (h : Path code subject {} t) (hstop : step code subject t = .stop v)
    (hu : Reached code subject u) : Path code subject u t := by
  induction hu with
  | refl => exact h
  | tail _ hstep ih =>
    rcases Relation.ReflTransGen.cases_head ih with rfl | ⟨w, hw, hpath⟩
    · rw [hstop] at hstep
      cases hstep
    · rw [hw.2] at hstep
      cases hstep
      exact hpath

theorem Path.not_transGen (h : Path code subject s t) (hstop : step code subject t = .stop v) :
    ¬ Relation.TransGen (Advances code subject) s s := by
  induction h using Relation.ReflTransGen.head_induction_on with
  | refl =>
    intro hloop
    obtain ⟨w, hw, -⟩ := Relation.TransGen.head'_iff.mp hloop
    rw [hw.2] at hstop
    cases hstop
  | head hstep _ ih =>
    intro hloop
    obtain ⟨w, hw, hback⟩ := Relation.TransGen.head'_iff.mp hloop
    have heq := hw.2.symm.trans hstep.2
    cases heq
    exact ih (Relation.TransGen.tail' hback hstep)

/-- A path inside a finite set takes fewer steps than the set has states. -/
theorem Path.run_card (h : Path code subject s t) (hstop : step code subject t = .stop v)
    (states : Finset State) (hstates : ∀ u, Path code subject s u → Path code subject u t →
      u ∈ states) : run code subject states.card s = v := by
  classical
  induction hn : states.card generalizing s states with
  | zero =>
    have hs := hstates s Relation.ReflTransGen.refl h
    rw [Finset.card_eq_zero.mp hn] at hs
    cases hs
  | succ n ih =>
    rcases Relation.ReflTransGen.cases_head h with rfl | ⟨w, hw, hpath⟩
    · rw [run, hstop]
    · rw [run, hw.2]
      have hs := hstates s Relation.ReflTransGen.refl h
      -- the rest of the path never comes back to `s`
      refine ih hpath (states.erase s) ?_ (by rw [Finset.card_erase_of_mem hs, hn]; rfl)
      intro u hwu hut
      refine Finset.mem_erase.mpr ⟨?_, hstates u (Relation.ReflTransGen.head hw hwu) hut⟩
      rintro rfl
      exact h.not_transGen hstop (Relation.TransGen.head' hw hwu)

theorem run_add (h : run code subject n s = v) (hv : v ≠ .unfinished) (m : Nat) :
    run code subject (n + m) s = v := by
  induction n generalizing s with
  | zero => exact absurd h.symm hv
  | succ n ih =>
    rw [Nat.add_right_comm, run]
    rw [run] at h
    split at h
    · exact h
    · exact ih h

def states (code subject : Array UInt8) : Finset State :=
  (Finset.range code.size ×ˢ Finset.range (subject.size + 1) ×ˢ Finset.univ).image
    fun x => ⟨x.1, x.2.1, x.2.2⟩

theorem mem_states (hpc : s.pc < code.size) (hcursor : s.cursor ≤ subject.size) :
    s ∈ states code subject := by
  refine Finset.mem_image.mpr ⟨(s.pc, s.cursor, s.flag), ?_, rfl⟩
  simp only [Finset.mem_product, Finset.mem_range, Finset.mem_univ, and_true]
  omega

theorem card_states_le : (states code subject).card ≤ stepBudget code subject := by
  have hcard : (states code subject).card ≤ code.size * ((subject.size + 1) * 2) := by
    refine Finset.card_image_le.trans ?_
    simp only [Finset.card_product, Finset.card_range, Finset.card_univ, Fintype.card_bool, le_refl]
  have hcode : code.size * 2 ≤
      (2 * code.size + 1) * (2 * code.size + 1) * (2 * code.size + 1) :=
    calc code.size * 2 ≤ 2 * code.size + 1 := by omega
      _ ≤ (2 * code.size + 1) * (2 * code.size + 1) := Nat.le_mul_self _
      _ ≤ _ := Nat.le_mul_of_pos_right _ (Nat.succ_pos _)
  calc (states code subject).card
      ≤ code.size * ((subject.size + 1) * 2) := hcard
    _ = code.size * 2 * (subject.size + 1) := by ring
    _ ≤ (2 * code.size + 1) * (2 * code.size + 1) * (2 * code.size + 1) * (subject.size + 1) :=
        Nat.mul_le_mul_right _ hcode
    _ ≤ stepBudget code subject := Nat.le_mul_of_pos_right _ (by decide)

structure Ends (code subject : Array UInt8) (s t : State) (v : Verdict) : Prop where
  path : Path code subject s t
  sound : t.Sound code subject
  stop : Instruction.decode code t.pc = .ok .accept ∧ v = .accepted ∨
    Instruction.decode code t.pc = .ok .fail ∧ v = .rejected

namespace Ends

theorem lt_size (h : Ends code subject s t v) : t.pc < code.size := by
  rcases h.stop with ⟨hi, -⟩ | ⟨hi, -⟩ <;> exact Instruction.lt_size_of_decode hi

theorem step_eq (h : Ends code subject s t v) : step code subject t = .stop v := by
  rcases h.stop with ⟨hi, rfl⟩ | ⟨hi, rfl⟩ <;> rw [step_of_decode hi] <;> rfl

theorem ne_unfinished (h : Ends code subject s t v) : v ≠ .unfinished := by
  rcases h.stop with ⟨-, rfl⟩ | ⟨-, rfl⟩ <;> simp

/-- The budget of a run is enough for every path to an accept or a fail. -/
theorem run_stepBudget (h : Ends code subject s t v) :
    run code subject (stepBudget code subject) s = v := by
  have hrun := h.path.run_card h.step_eq (states code subject) (by
    intro u _ hut
    rcases Relation.ReflTransGen.cases_head hut with rfl | ⟨w, hw, -⟩
    · exact mem_states h.lt_size h.sound.cursor_le
    · exact mem_states (lt_size_of_step hw.2) hw.1.cursor_le)
  have hcard : (states code subject).card ≤ stepBudget code subject := card_states_le
  obtain ⟨m, hm⟩ := Nat.exists_eq_add_of_le hcard
  rw [hm]
  exact run_add hrun h.ne_unfinished m

theorem halts (h : Ends code subject {} t v) : Halts code subject :=
  ⟨_, h.run_stepBudget ▸ h.ne_unfinished⟩

theorem of_reached (h : Ends code subject {} t v) (hu : Reached code subject u) :
    u.Sound code subject ∧ ((∃ w, step code subject u = .next w) ∨
      Instruction.decode code u.pc = .ok .accept ∨ Instruction.decode code u.pc = .ok .fail) := by
  rcases Relation.ReflTransGen.cases_head (h.path.of_reached h.step_eq hu) with rfl | ⟨w, hw, -⟩
  · exact ⟨h.sound, .inr (h.stop.imp And.left And.left)⟩
  · exact ⟨hw.1, .inl ⟨w, hw.2⟩⟩

end Ends

end

end PatternEngine.Machine

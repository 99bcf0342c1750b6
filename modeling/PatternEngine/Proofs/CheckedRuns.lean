import PatternEngine.Proofs.Execution
import PatternEngine.Proofs.Lines

/-!
# Runs of checked code

Code passes the check of jumps when its listing is complete and all its jumps
land on lines of the listing. Every step of the machine then goes from a line to
a line or to the end of the code, whoever wrote the code. Main statement: the
check is exact, and a run of checked code has nothing to report but a cursor that
would leave the subject.
-/

namespace PatternEngine

/-! ### Places of a listing -/

/-- The start of a line, or the end of all lines. -/
def OnLine (lines : List Line) (stop pc : Nat) : Prop :=
  pc = stop ∨ ∃ line ∈ lines, line.offset = pc

section
variable {code : Array UInt8} {pc stop : Nat} {lines : List Line} {line : Line}

theorem OnLine.cons (h : OnLine lines stop pc) (line : Line) : OnLine (line :: lines) stop pc := by
  rcases h with rfl | ⟨target, htarget, rfl⟩
  · exact .inl rfl
  · exact .inr ⟨target, List.mem_cons_of_mem _ htarget, rfl⟩

theorem Reads.start (h : Reads code pc lines stop) : OnLine lines stop pc := by
  cases h with
  | nil => exact .inl rfl
  | cons => exact .inr ⟨_, List.mem_cons_self .., rfl⟩

theorem Reads.next (h : Reads code pc lines stop) (hline : line ∈ lines) :
    OnLine lines stop (line.offset + line.width) := by
  induction h with
  | nil => cases hline
  | cons _ hrest ih =>
    rcases List.mem_cons.mp hline with rfl | hline
    · exact hrest.start.cons _
    · exact (ih hline).cons _

/-- Lines of a whole buffer whose jumps land on them. -/
structure Checked (code : Array UInt8) (lines : List Line) : Prop where
  reads : Reads code 0 lines code.size
  lands : ∀ line ∈ lines, ∀ landing, line.landing? = some landing →
    ∃ target ∈ lines, landing = target.offset

theorem exists_reads_to_size (h : (disassemble code).isComplete = true) :
    ∃ lines, Reads code 0 lines code.size ∧ disassemble code = ⟨lines.toArray, none⟩ := by
  obtain ⟨lines, stop, hlines, hstop⟩ := exists_reads_of_isComplete h
  obtain rfl : stop = code.size := Nat.le_antisymm (hlines.stop_le (Nat.zero_le _)) hstop
  exact ⟨lines, hlines, disassemble_of_reads hlines hstop⟩

theorem exists_checked (h : verify code = .ok ()) :
    ∃ lines, Checked code lines ∧ (disassemble code).lines.toList = lines := by
  obtain ⟨hcomplete, hlands⟩ := verify_eq_ok_iff.mp h
  obtain ⟨lines, hreads, hlisting⟩ := exists_reads_to_size hcomplete
  rw [hlisting] at hlands ⊢
  exact ⟨lines, ⟨hreads, by simpa using hlands⟩, rfl⟩

end

/-! ### Destinations -/

/-- Every jump goes to the offset of a line, under some reading of jumps. -/
def Listing.JumpsLand (listing : Listing) (goesTo : Line → Option Int) : Prop :=
  ∀ line ∈ listing.lines, ∀ place, goesTo line = some place →
    ∃ target ∈ listing.lines, place = target.offset

theorem Line.destination?_eq_map (line : Line) :
    line.destination? = line.landing?.map fun landing => Int.bmod landing UInt64.size := by
  unfold destination? landing?
  cases line.instruction.jumpTarget? with
  | none => rfl
  | some target => cases target <;> rfl

theorem Line.bmod_landing {line : Line} {size : Nat} (hsize : size < 2 ^ 63)
    (hline : line.offset + line.width ≤ size) {landing : Int} (h : line.landing? = some landing)
    {place : Nat} (hplace : place < size) :
    Int.bmod landing UInt64.size = place ↔ landing = place := by
  have hbounds : -2 ^ 31 ≤ landing ∧ landing < 2 ^ 63 + 2 ^ 31 := by
    unfold landing? at h
    split at h
    · rename_i distance _
      have hlow := distance.le_toInt
      have hhigh := distance.toInt_lt
      cases h
      omega
    · cases h
  simp only [Int.bmod, UInt64.size]
  split <;> omega

/-- In a buffer that an address of 64 bits can span, the signed destination of a
line decides as well as the exact one. -/
theorem jumpsLand_destination_iff {code : Array UInt8} (hsize : code.size < 2 ^ 63)
    (h : (disassemble code).isComplete = true) :
    (disassemble code).JumpsLand Line.destination? ↔
      (disassemble code).JumpsLand Line.landing? := by
  obtain ⟨lines, hreads, hlisting⟩ := exists_reads_to_size h
  have hbmod : ∀ line ∈ lines, ∀ target ∈ lines, ∀ landing, line.landing? = some landing →
      (Int.bmod landing UInt64.size = target.offset ↔ landing = target.offset) := by
    intro line hline target htarget landing hlanding
    obtain ⟨hi, hwidth⟩ := hreads.decode hline
    have hstop := Instruction.stop_le_size_of_decode hi
    have hstart := Instruction.lt_size_of_decode (hreads.decode htarget).1
    exact Line.bmod_landing hsize (hwidth ▸ hstop) hlanding hstart
  rw [hlisting]
  simp only [Listing.JumpsLand, List.mem_toArray, Line.destination?_eq_map,
    Option.map_eq_some_iff, forall_exists_index, and_imp, forall_apply_eq_imp_iff₂]
  constructor
  · intro hlands line hline landing hlanding
    obtain ⟨target, htarget, heq⟩ := hlands line hline landing hlanding
    exact ⟨target, htarget, (hbmod line hline target htarget landing hlanding).mp heq⟩
  · intro hlands line hline landing hlanding
    obtain ⟨target, htarget, heq⟩ := hlands line hline landing hlanding
    exact ⟨target, htarget, (hbmod line hline target htarget landing hlanding).mpr heq⟩

/-! ### Steps -/

namespace Machine

/-- The cursor would leave the subject at its start. -/
def Fault.OfCursor : Fault → Prop
  | .stepBeforeStart | .rewindBeforeStart _ => True
  | .undecodable _ | .unresolvedJump | .jumpBeforeStart _ => False

/-- All that an instruction can do to a state. -/
inductive Performs (s : State) (i : Instruction) : Step → Prop where
  | moveOn (cursor : Nat) (flag : Bool) : Performs s i (.next ⟨s.pc + i.width, cursor, flag⟩)
  | jump {distance : Int32} {landing : Nat} (htarget : i.jumpTarget? = some (.offset distance))
      (hlanding : (landing : Int) = (s.pc + i.width : Nat) + distance.toInt) :
      Performs s i (.next { s with pc := landing })
  | halt {v : Verdict} (h : v = .accepted ∨ v = .rejected) : Performs s i (.stop v)
  | cursorFault {cause : Fault} (h : cause.OfCursor) : Performs s i (.stop (.faulted s.pc cause))
  | jumpFault {target : JumpTarget} (cause : Fault) (htarget : i.jumpTarget? = some target)
      (hnone : ∀ distance, target = .offset distance →
        (s.pc + i.width : Nat) + distance.toInt < 0) : Performs s i (.stop (.faulted s.pc cause))

section
variable {code subject : Array UInt8} {lines : List Line} {s t : State} {i : Instruction}

theorem performs_jump {holds : Bool} {target : JumpTarget} (htarget : i.jumpTarget? = some target)
    (hwidth : i.width = jumpWidth) : Performs s i (s.jump holds target) := by
  unfold State.jump
  split
  · cases target with
    | offset distance =>
      simp only [displace, ← hwidth]
      split
      · rename_i hnone
        split at hnone
        · cases hnone
        · cases hnone
          exact .jump htarget (by omega)
      · rename_i hnone
        split at hnone
        · refine .jumpFault _ htarget ?_
          rintro _ ⟨⟩
          assumption
        · cases hnone
    | unresolved | toFail => exact .jumpFault _ htarget (by rintro _ ⟨⟩)
  · rw [← hwidth]
    exact .moveOn s.cursor s.flag

theorem performs (s : State) (subject : Array UInt8) (i : Instruction) :
    Performs s i (s.perform subject i) := by
  cases i with
  | jumpEq target | jumpNeq target => exact performs_jump rfl rfl
  | decPos =>
    by_cases hstart : s.cursor = 0
    · have hperform : s.perform subject .decPos = .stop (.faulted s.pc .stepBeforeStart) :=
        if_pos hstart
      rw [hperform]
      exact .cursorFault trivial
    · have hperform : s.perform subject .decPos =
          .next ⟨s.pc + Instruction.decPos.width, s.cursor - 1, s.flag⟩ := if_neg hstart
      rw [hperform]
      exact .moveOn _ _
  | jumpPos distance =>
    rw [perform_jumpPos]
    cases displace s.cursor distance with
    | some moved => exact .moveOn moved s.flag
    | none => exact .cursorFault trivial
  | accept => exact .halt (.inl rfl)
  | fail => exact .halt (.inr rfl)
  | _ => exact .moveOn _ _

/-- A step on a line of checked code goes to a line or to the end, and a step
that ends in a fault is one of the cursor. -/
theorem step_of_onLine (hc : Checked code lines) (hs : OnLine lines code.size s.pc)
    (subject : Array UInt8) :
    (∀ t, step code subject s = .next t → OnLine lines code.size t.pc) ∧
      ∀ pc cause, step code subject s = .stop (.faulted pc cause) → cause.OfCursor := by
  rcases hs with hend | ⟨line, hline, hoffset⟩
  · have hstep : step code subject s = .stop (.ranOff s.flag) := by
      rw [step, if_neg (by omega)]
    rw [hstep]
    constructor
    · rintro t ⟨⟩
    · rintro pc cause ⟨⟩
  · obtain ⟨hi, hwidth⟩ := hc.reads.decode hline
    have hnext := hc.reads.next hline
    have hlands := hc.lands line hline
    rw [hoffset] at hi
    rw [hoffset, hwidth] at hnext
    rw [step_of_decode hi]
    have hperforms := performs s subject line.instruction
    constructor
    · intro t ht
      rw [ht] at hperforms
      cases hperforms with
      | moveOn => exact hnext
      | jump htarget hlanding =>
        obtain ⟨target, htarget, heq⟩ := hlands _ (Line.landing_of_target htarget)
        refine .inr ⟨target, htarget, ?_⟩
        simp only
        omega
    · intro pc cause hfault
      rw [hfault] at hperforms
      cases hperforms with
      | halt h => simp at h
      | cursorFault h => exact h
      | jumpFault _ htarget hnone =>
        -- the jump was read, so it has a distance, and it lands on a line
        obtain ⟨distance, rfl⟩ := Instruction.exists_distance_of_decode hi htarget
        obtain ⟨target, -, heq⟩ := hlands _ (Line.landing_of_target htarget)
        have := hnone distance rfl
        omega

theorem Reached.onLine (hc : Checked code lines) (h : Reached code subject s) :
    OnLine lines code.size s.pc := by
  induction h with
  | refl => exact hc.reads.start
  | tail _ hstep ih => exact (step_of_onLine hc ih subject).1 _ hstep

theorem run_fault_ofCursor {n pc : Nat} {cause : Fault} (hc : Checked code lines)
    (hs : OnLine lines code.size s.pc) (h : run code subject n s = .faulted pc cause) :
    cause.OfCursor := by
  induction n generalizing s with
  | zero => cases h
  | succ n ih =>
    obtain ⟨hnext, hfault⟩ := step_of_onLine hc hs subject
    rw [run] at h
    cases hstep : step code subject s with
    | stop v =>
      rw [hstep] at h
      exact hfault pc cause (hstep.trans (congrArg Step.stop h))
    | next t =>
      rw [hstep] at h
      exact ih (hnext t hstep) h

end

/-- Code passes the check exactly when its listing is complete and every jump
goes to the offset of a line, and the destinations of the listing say so too in
every buffer that an address of 64 bits can span. A run of code that passes is
always on a line or at the end of the code, so it never reports bytes that
cannot be read, a jump without a distance or a jump before the start. -/
theorem verify_exact_and_keeps_runs_on_lines (code : Array UInt8) :
    (verify code = .ok () ↔
      (disassemble code).isComplete = true ∧ (disassemble code).JumpsLand Line.landing?) ∧
    (code.size < 2 ^ 63 → (verify code = .ok () ↔
      (disassemble code).isComplete = true ∧ (disassemble code).JumpsLand Line.destination?)) ∧
    (verify code = .ok () → ∀ subject : Array UInt8,
      (∀ s, Reached code subject s →
        s.pc = code.size ∨ ∃ line ∈ (disassemble code).lines, line.offset = s.pc) ∧
      ∀ steps pc cause, run code subject steps {} = .faulted pc cause → cause.OfCursor) := by
  refine ⟨verify_eq_ok_iff, ?_, ?_⟩
  · intro hsize
    rw [verify_eq_ok_iff]
    exact and_congr_right fun hcomplete => (jumpsLand_destination_iff hsize hcomplete).symm
  · intro h subject
    obtain ⟨lines, hc, hlines⟩ := exists_checked h
    refine ⟨?_, ?_⟩
    · intro s hs
      have hline : OnLine lines code.size s.pc := Reached.onLine hc hs
      rw [← hlines] at hline
      simpa [OnLine] using hline
    · intro steps pc cause hrun
      exact run_fault_ofCursor hc hc.reads.start hrun

/-- A loop over one byte that ends without an accept or a fail. -/
def bareLoop : Array UInt8 := #[1, 97, 8, 11, 255, 255, 255, 248]

theorem verify_exact_bareLoop : (disassemble bareLoop).JumpsLand Line.destination? ∧
    ∀ steps pc cause, run bareLoop #[97, 98] steps {} = .faulted pc cause → cause.OfCursor := by
  have hverify : verify bareLoop = .ok () := by cbv
  obtain ⟨-, hexact, hruns⟩ := verify_exact_and_keeps_runs_on_lines bareLoop
  exact ⟨((hexact (by decide)).mp hverify).2, (hruns hverify #[97, 98]).2⟩

end Machine

end PatternEngine

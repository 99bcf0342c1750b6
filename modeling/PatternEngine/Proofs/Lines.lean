import PatternEngine.JumpCheck
import PatternEngine.Proofs.Codec

/-!
# Lines of a listing and the check of jumps

The lines of a listing follow one another from the start of a buffer, and a
listing is complete when they reach its end. The check of jumps walks over the
same lines. Main statement: it passes exactly the buffers whose listing is
complete and whose jumps all land where a line starts.
-/

namespace PatternEngine

/-- Lines that follow one another from a place of a buffer to another. -/
inductive Reads (code : Array UInt8) : Nat → List Line → Nat → Prop where
  | nil {pc : Nat} : Reads code pc [] pc
  | cons {pc stop : Nat} {i : Instruction} {lines : List Line}
      (h : Instruction.decode code pc = .ok i) (hrest : Reads code (pc + i.width) lines stop) :
    Reads code pc (⟨pc, i, i.width⟩ :: lines) stop

section
variable {code : Array UInt8} {pc middle stop : Nat} {lines more : List Line} {line : Line}

theorem Reads.append (h : Reads code pc lines middle) (hmore : Reads code middle more stop) :
    Reads code pc (lines ++ more) stop := by
  induction h with
  | nil => exact hmore
  | cons hi _ ih => exact .cons hi (ih hmore)

theorem Reads.decode (h : Reads code pc lines stop) (hline : line ∈ lines) :
    Instruction.decode code line.offset = .ok line.instruction ∧
      line.width = line.instruction.width := by
  induction h with
  | nil => cases hline
  | cons hi _ ih =>
    rcases List.mem_cons.mp hline with rfl | hline
    · exact ⟨hi, rfl⟩
    · exact ih hline

theorem Reads.stop_le (h : Reads code pc lines stop) (hpc : pc ≤ code.size) : stop ≤ code.size := by
  induction h with
  | nil => exact hpc
  | cons hi _ ih => exact ih (Instruction.stop_le_size_of_decode hi)

/-- From every place, lines can be read up to one where no instruction stands. -/
theorem exists_reads (code : Array UInt8) (pc : Nat) :
    ∃ lines stop, Reads code pc lines stop ∧ ∀ i, Instruction.decode code stop ≠ .ok i := by
  induction pc, (#[] : Array Line) using disassembleFrom.induct code with
  | case1 pc before hlt i hi ih =>
    obtain ⟨lines, stop, hlines, hstuck⟩ := ih
    exact ⟨_, stop, .cons hi hlines, hstuck⟩
  | case2 pc before hlt cause hcause => exact ⟨[], pc, .nil, by simp [hcause]⟩
  | case3 pc before hge =>
    exact ⟨[], pc, .nil, fun i hi => hge (Instruction.lt_size_of_decode hi)⟩

theorem disassembleFrom_of_reads (h : Reads code pc lines stop) (before : Array Line) :
    disassembleFrom code pc before = disassembleFrom code stop (before ++ lines.toArray) := by
  induction h generalizing before with
  | nil => simp
  | @cons pc stop i lines hi _ ih =>
    rw [disassembleFrom, if_pos (Instruction.lt_size_of_decode hi), hi]
    simp only [ih]
    simp

theorem disassembleFrom_of_le (h : code.size ≤ pc) (before : Array Line) :
    disassembleFrom code pc before = ⟨before, none⟩ := by
  rw [disassembleFrom, if_neg (Nat.not_lt.mpr h)]

theorem disassembleFrom_of_error {cause : DecodeError} (hpc : pc < code.size)
    (h : Instruction.decode code pc = .error cause) (before : Array Line) :
    disassembleFrom code pc before = ⟨before, some cause⟩ := by
  rw [disassembleFrom, if_pos hpc, h]

/-- A listing ends where nothing more can be read, and with a reason unless the
buffer ends there. -/
theorem exists_stopped (h : ∀ i, Instruction.decode code pc ≠ .ok i) (before : Array Line) :
    ∃ stopped, disassembleFrom code pc before = ⟨before, stopped⟩ ∧
      (stopped = none → code.size ≤ pc) := by
  by_cases hpc : pc < code.size
  · cases hdecode : Instruction.decode code pc with
    | ok i => exact absurd hdecode (h i)
    | error cause => exact ⟨some cause, disassembleFrom_of_error hpc hdecode before, nofun⟩
  · have hle := Nat.le_of_not_lt hpc
    exact ⟨none, disassembleFrom_of_le hle before, fun _ => hle⟩

theorem disassemble_of_reads (h : Reads code 0 lines stop) (hstop : code.size ≤ stop) :
    disassemble code = ⟨lines.toArray, none⟩ := by
  rw [disassemble, disassembleFrom_of_reads h, disassembleFrom_of_le hstop]
  simp

theorem exists_reads_of_isComplete (h : (disassemble code).isComplete = true) :
    ∃ lines stop, Reads code 0 lines stop ∧ code.size ≤ stop := by
  obtain ⟨lines, stop, hlines, hstuck⟩ := exists_reads code 0
  obtain ⟨stopped, hstopped, hle⟩ := exists_stopped hstuck lines.toArray
  rw [disassemble, disassembleFrom_of_reads hlines, Array.empty_append, hstopped] at h
  exact ⟨lines, stop, hlines, hle (Option.isNone_iff_eq_none.mp h)⟩

end

/-! ### The check of jumps -/

/-- Where the jump of a line lands, before or past the program included. -/
def Line.landing? (line : Line) : Option Int :=
  match line.instruction.jumpTarget? with
  | some (.offset distance) => some ((line.offset + line.width : Nat) + distance.toInt)
  | _ => none

theorem Line.landing_of_target {line : Line} {distance : Int32}
    (h : line.instruction.jumpTarget? = some (.offset distance)) :
    line.landing? = some ((line.offset + line.width : Nat) + distance.toInt) := by
  rw [landing?, h]

def Line.jump? (line : Line) : Option (Nat × Nat) :=
  line.landing?.map fun landing => (line.offset, landing.toNat)

/-- Marks the start of every line. -/
def markStarts (starts : Array Bool) (lines : List Line) : Array Bool :=
  lines.foldl (fun starts line => starts.setIfInBounds line.offset true) starts

section
variable {code : Array UInt8} {pc stop : Nat} {lines : List Line}

theorem surveyFrom_of_reads (h : Reads code pc lines stop) (hstop : code.size ≤ stop)
    (hlandings : ∀ line ∈ lines, ∀ landing, line.landing? = some landing → 0 ≤ landing)
    (starts : Array Bool) (jumps : Array (Nat × Nat)) :
    surveyFrom code pc starts jumps =
      .ok ⟨markStarts starts lines, jumps ++ (lines.filterMap Line.jump?).toArray⟩ := by
  induction h generalizing starts jumps with
  | nil =>
    rw [surveyFrom, if_neg (by omega)]
    simp [markStarts]
  | @cons pc stop i lines hi _ ih =>
    have hfirst := hlandings _ (List.mem_cons_self ..)
    have hrest := ih hstop fun line hline => hlandings line (List.mem_cons_of_mem _ hline)
    rw [surveyFrom, if_pos (Instruction.lt_size_of_decode hi), hi]
    simp only
    split
    · rename_i distance htarget
      have hlanding : Line.landing? ⟨pc, i, i.width⟩ =
          some ((pc + i.width : Nat) + distance.toInt) := Line.landing_of_target htarget
      rw [if_neg (Int.not_lt.mpr (hfirst _ hlanding)), hrest]
      simp [markStarts, Line.jump?, hlanding]
    · rename_i htarget
      have hlanding : Line.landing? ⟨pc, i, i.width⟩ = none := by
        simp only [Line.landing?]
      rw [hrest]
      simp [markStarts, Line.jump?, hlanding]

theorem reads_of_surveyFrom {starts : Array Bool} {jumps : Array (Nat × Nat)} {s : Survey}
    (h : surveyFrom code pc starts jumps = .ok s) :
    ∃ lines stop, Reads code pc lines stop ∧ code.size ≤ stop ∧
      ∀ line ∈ lines, ∀ landing, line.landing? = some landing → 0 ≤ landing := by
  fun_induction surveyFrom code pc starts jumps with
  | case1 => cases h
  | case2 => cases h
  | case3 pc starts jumps hlt i hi distance htarget landing hlanding ih =>
    obtain ⟨lines, stop, hlines, hstop, hall⟩ := ih h
    refine ⟨_, stop, .cons hi hlines, hstop, ?_⟩
    intro line hline
    rcases List.mem_cons.mp hline with rfl | hline
    · intro l hl
      cases (Line.landing_of_target htarget).symm.trans hl
      exact Int.not_lt.mp hlanding
    · exact hall line hline
  | case4 pc starts jumps hlt i hi htarget ih =>
    obtain ⟨lines, stop, hlines, hstop, hall⟩ := ih h
    refine ⟨_, stop, .cons hi hlines, hstop, ?_⟩
    intro line hline
    rcases List.mem_cons.mp hline with rfl | hline
    · intro l hl
      simp only [Line.landing?, reduceCtorEq] at hl
    · exact hall line hline
  | case5 pc starts jumps hge => exact ⟨[], pc, .nil, by omega, by simp⟩

theorem getElem?_markStarts (starts : Array Bool) (position : Nat) :
    (markStarts starts lines)[position]?.getD false = true ↔
      starts[position]?.getD false = true ∨
        position < starts.size ∧ ∃ line ∈ lines, line.offset = position := by
  induction lines generalizing starts with
  | nil => simp [markStarts]
  | cons line lines ih =>
    have hset : (starts.setIfInBounds line.offset true)[position]?.getD false = true ↔
        starts[position]?.getD false = true ∨
          position < starts.size ∧ line.offset = position := by
      rw [Array.getElem?_setIfInBounds]
      split
      · split <;> grind
      · grind
    have hstep := ih (starts.setIfInBounds line.offset true)
    rw [hset, Array.size_setIfInBounds] at hstep
    simp only [markStarts, List.foldl_cons] at hstep ⊢
    rw [hstep]
    simp only [List.mem_cons, exists_eq_or_imp, and_or_left, or_assoc]

theorem isStart_iff (h : Reads code 0 lines stop) (jumps : Array (Nat × Nat)) (position : Nat) :
    Survey.isStart ⟨markStarts (Array.replicate code.size false) lines, jumps⟩ position = true ↔
      ∃ line ∈ lines, line.offset = position := by
  rw [Survey.isStart, getElem?_markStarts, Array.size_replicate]
  constructor
  · rintro (hstart | ⟨-, hline⟩)
    · rw [Array.getElem?_replicate] at hstart
      split at hstart <;> cases hstart
    · exact hline
  · rintro ⟨line, hline, rfl⟩
    exact .inr ⟨Instruction.lt_size_of_decode (h.decode hline).1, line, hline, rfl⟩

theorem verify_of_reads (h : Reads code 0 lines stop) (hstop : code.size ≤ stop)
    (hlandings : ∀ line ∈ lines, ∀ landing, line.landing? = some landing → 0 ≤ landing) :
    verify code = .ok () ↔ ∀ line ∈ lines, ∀ landing, line.landing? = some landing →
      ∃ target ∈ lines, landing = target.offset := by
  have hall : verify code = .ok () ↔ ∀ jump ∈ lines.filterMap Line.jump?,
      ∃ target ∈ lines, target.offset = jump.2 := by
    simp only [verify, survey, surveyFrom_of_reads h hstop hlandings, Array.empty_append]
    split
    · rename_i jump hjump
      obtain ⟨hbad, hmem⟩ := And.intro (Array.find?_some hjump) (Array.mem_of_find?_eq_some hjump)
      rw [Bool.not_eq_true', ← Bool.not_eq_true, isStart_iff h] at hbad
      exact iff_of_false nofun fun hgood => hbad (hgood jump (by simpa using hmem))
    · rename_i hnone
      refine iff_of_true rfl ?_
      intro jump hjump
      have hgood := Array.find?_eq_none.mp hnone jump (by simpa using hjump)
      rwa [Bool.not_eq_true', Bool.not_eq_false, isStart_iff h] at hgood
  rw [hall]
  constructor
  · intro hjumps line hline landing hlanding
    have hjump : (line.offset, landing.toNat) ∈ lines.filterMap Line.jump? :=
      List.mem_filterMap.mpr ⟨line, hline, by rw [Line.jump?, hlanding]; rfl⟩
    obtain ⟨target, htarget, hoffset⟩ := hjumps _ hjump
    have := hlandings line hline landing hlanding
    exact ⟨target, htarget, by omega⟩
  · intro htargets jump hjump
    obtain ⟨line, hline, hline'⟩ := List.mem_filterMap.mp hjump
    obtain ⟨landing, hlanding, rfl⟩ := Option.map_eq_some_iff.mp hline'
    obtain ⟨target, htarget, rfl⟩ := htargets line hline landing hlanding
    exact ⟨target, htarget, rfl⟩

end

/-- The check passes exactly the buffers that can be read to the end and whose
jumps all land where a line of the listing starts. -/
theorem verify_eq_ok_iff {code : Array UInt8} : verify code = .ok () ↔
    (disassemble code).isComplete = true ∧
      ∀ line ∈ (disassemble code).lines, ∀ landing, line.landing? = some landing →
        ∃ target ∈ (disassemble code).lines, landing = target.offset := by
  constructor
  · intro h
    have hsurvey : ∃ s, survey code = .ok s := by
      cases hs : survey code with
      | error e => simp [verify, hs] at h
      | ok s => exact ⟨s, rfl⟩
    obtain ⟨s, hs⟩ := hsurvey
    obtain ⟨lines, stop, hlines, hstop, hlandings⟩ := reads_of_surveyFrom hs
    rw [disassemble_of_reads hlines hstop]
    refine ⟨rfl, ?_⟩
    simpa using (verify_of_reads hlines hstop hlandings).mp h
  · rintro ⟨hcomplete, htargets⟩
    obtain ⟨lines, stop, hlines, hstop⟩ := exists_reads_of_isComplete hcomplete
    rw [disassemble_of_reads hlines hstop] at htargets
    simp only [List.mem_toArray] at htargets
    refine (verify_of_reads hlines hstop ?_).mpr htargets
    intro line hline landing hlanding
    obtain ⟨target, -, rfl⟩ := htargets line hline landing hlanding
    exact Int.natCast_nonneg _

end PatternEngine

import PatternEngine.Proofs.Lines
import PatternEngine.Proofs.Placement

/-!
# Instructions in sequence

Instructions are written one after another into a buffer. Main statement: a
sequence whose jumps all have a distance is written to its end and takes as many
bytes as its instructions are wide. Each of them reads back at its place, with
any bytes before and after the sequence. Alone it is a complete listing of one
line for each instruction, so no two sequences are written alike.
-/

namespace PatternEngine.Instruction

/-- Not a jump, or a jump with a distance. -/
def Resolved (i : Instruction) : Prop :=
  ∀ target, i.jumpTarget? = some target → ∃ distance, target = .offset distance

/-- Writes instructions one after another, up to the first that is refused. -/
def writeAll (is : List Instruction) (buffer : Array UInt8) : Except CompileError (Array UInt8) :=
  is.foldlM (fun buffer i => i.write buffer) buffer

/-- Where an instruction of a sequence starts. -/
def startOf (is : List Instruction) (k : Nat) : Nat := ((is.take k).map width).sum

/-- The lines of a sequence that starts at a place. -/
def linesFrom (pc : Nat) : List Instruction → List Line
  | [] => []
  | i :: rest => ⟨pc, i, i.width⟩ :: linesFrom (pc + i.width) rest

def allBytes? : List Instruction → Option (List UInt8)
  | [] => some []
  | i :: rest => do return (← i.bytes?) ++ (← allBytes? rest)

theorem linesFrom_eq_mapIdx (pc : Nat) (is : List Instruction) :
    linesFrom pc is = is.mapIdx fun k i => ⟨pc + startOf is k, i, i.width⟩ := by
  induction is generalizing pc with
  | nil => rfl
  | cons i rest ih =>
    rw [linesFrom, ih, List.mapIdx_cons]
    simp [startOf, Nat.add_assoc]

theorem map_instruction_linesFrom (pc : Nat) (is : List Instruction) :
    (linesFrom pc is).map Line.instruction = is := by
  induction is generalizing pc with
  | nil => rfl
  | cons i rest ih => rw [linesFrom, List.map_cons, ih]

/-! ### Bytes -/

theorem isSome_bytes?_iff {i : Instruction} : i.bytes?.isSome ↔ i.Resolved := by
  cases i with
  | jumpEq target | jumpNeq target =>
    cases target <;> simp [bytes?, operands?, Resolved, jumpTarget?, JumpTarget.distance?]
  | _ => simp [bytes?, operands?, Resolved, jumpTarget?]

theorem allBytes?_cons_eq_some {i : Instruction} {rest : List Instruction} {bytes : List UInt8} :
    allBytes? (i :: rest) = some bytes ↔
      ∃ first more, i.bytes? = some first ∧ allBytes? rest = some more ∧ bytes = first ++ more := by
  simp only [allBytes?, Option.bind_eq_bind, Option.bind_eq_some_iff, Option.pure_def,
    Option.some.injEq, exists_and_left, @eq_comm _ bytes]

theorem exists_allBytes {is : List Instruction} (h : ∀ i ∈ is, i.Resolved) :
    ∃ bytes, allBytes? is = some bytes := by
  induction is with
  | nil => exact ⟨[], rfl⟩
  | cons i rest ih =>
    obtain ⟨hi, hrest⟩ := List.forall_mem_cons.mp h
    obtain ⟨first, hfirst⟩ := Option.isSome_iff_exists.mp (isSome_bytes?_iff.mpr hi)
    obtain ⟨more, hmore⟩ := ih hrest
    exact ⟨_, allBytes?_cons_eq_some.mpr ⟨first, more, hfirst, hmore, rfl⟩⟩

theorem length_allBytes {is : List Instruction} {bytes : List UInt8}
    (h : allBytes? is = some bytes) : bytes.length = (is.map width).sum := by
  induction is generalizing bytes with
  | nil =>
    cases h
    rfl
  | cons i rest ih =>
    obtain ⟨first, more, hfirst, hmore, rfl⟩ := allBytes?_cons_eq_some.mp h
    simp [length_bytes hfirst, ih hmore]

theorem writeAll_eq_ok {is : List Instruction} {buffer out : Array UInt8} :
    writeAll is buffer = .ok out ↔
      ∃ bytes, allBytes? is = some bytes ∧ out = buffer ++ bytes.toArray := by
  induction is generalizing buffer with
  | nil => simp [writeAll, allBytes?, pure, Except.pure, eq_comm]
  | cons i rest ih =>
    have hcons : writeAll (i :: rest) buffer =
        (i.write buffer).bind fun buffer => writeAll rest buffer := rfl
    constructor
    · intro h
      cases hi : i.write buffer with
      | error e => simp [hcons, hi, Except.bind] at h
      | ok middle =>
        obtain ⟨first, hfirst, rfl⟩ := write_eq_ok hi
        rw [hcons, hi] at h
        obtain ⟨more, hmore, rfl⟩ := ih.mp h
        exact ⟨_, allBytes?_cons_eq_some.mpr ⟨first, more, hfirst, hmore, rfl⟩, by simp⟩
    · rintro ⟨bytes, h, rfl⟩
      obtain ⟨first, more, hfirst, hmore, rfl⟩ := allBytes?_cons_eq_some.mp h
      have hi : i.write buffer = .ok (buffer ++ first.toArray) := by
        simp [write, encode_eq_append hfirst]
      rw [hcons, hi]
      exact ih.mpr ⟨more, hmore, by simp⟩

/-! ### Reading back -/

theorem reads_of_allBytes {is : List Instruction} {bytes before after : List UInt8}
    {code : Array UInt8} (h : allBytes? is = some bytes)
    (hcode : code.toList = before ++ bytes ++ after) :
    Reads code before.length (linesFrom before.length is) (before.length + bytes.length) := by
  induction is generalizing bytes before with
  | nil =>
    cases h
    exact .nil
  | cons i rest ih =>
    obtain ⟨first, more, hfirst, hmore, rfl⟩ := allBytes?_cons_eq_some.mp h
    have hhere : code.toList = before ++ first ++ (more ++ after) := by simpa using hcode
    have hthere : code.toList = before ++ first ++ more ++ after := by simpa using hcode
    -- what was read so far is part of what stands before the rest
    have hrest := ih hmore hthere
    rw [List.length_append, length_bytes hfirst] at hrest
    rw [List.length_append, length_bytes hfirst, ← Nat.add_assoc]
    exact .cons (decode_append hfirst hhere) hrest

theorem disassemble_of_allBytes {is : List Instruction} {bytes : List UInt8}
    (h : allBytes? is = some bytes) :
    disassemble bytes.toArray = ⟨(linesFrom 0 is).toArray, none⟩ := by
  have hcode : bytes.toArray.toList = [] ++ bytes ++ [] := by simp
  exact disassemble_of_reads (reads_of_allBytes h hcode) (by simp)

theorem allBytes?_injective {is js : List Instruction} {bytes : List UInt8}
    (his : allBytes? is = some bytes) (hjs : allBytes? js = some bytes) : is = js := by
  have hlisting := (disassemble_of_allBytes his).symm.trans (disassemble_of_allBytes hjs)
  have hlines : linesFrom 0 is = linesFrom 0 js := by simpa using hlisting
  rw [← map_instruction_linesFrom 0 is, hlines, map_instruction_linesFrom]

/-- Instructions whose jumps have distances are written behind any bytes, in as
many bytes as they are wide. They read back there, each at its place, in its width
and whatever bytes follow. Alone they are a complete listing of one line for
each, and no other instructions are written alike. -/
theorem exists_bytes_read_back (is : List Instruction) (h : ∀ i ∈ is, i.Resolved) :
    ∃ bytes : Array UInt8, bytes.size = (is.map width).sum ∧
      (∀ before, writeAll is before = .ok (before ++ bytes)) ∧
      (∀ before after : Array UInt8, ∀ k (hk : k < is.length),
        decode (before ++ bytes ++ after) (before.size + startOf is k) = .ok is[k] ∧
          widthAt? (before ++ bytes ++ after) (before.size + startOf is k) = some is[k].width) ∧
      ((disassemble bytes).isComplete = true ∧ (disassemble bytes).lines.toList =
        is.mapIdx fun k i => ⟨startOf is k, i, i.width⟩) ∧
      ∀ js before, writeAll js before = writeAll is before → js = is := by
  obtain ⟨bytes, hbytes⟩ := exists_allBytes h
  have hwrite : ∀ before, writeAll is before = .ok (before ++ bytes.toArray) :=
    fun before => writeAll_eq_ok.mpr ⟨bytes, hbytes, rfl⟩
  refine ⟨bytes.toArray, length_allBytes hbytes, hwrite, ?_, ?_, ?_⟩
  · intro before after k hk
    have hcode : (before ++ bytes.toArray ++ after).toList =
        before.toList ++ bytes ++ after.toList := by simp
    have hline : ⟨before.size + startOf is k, is[k], is[k].width⟩ ∈
        linesFrom before.toList.length is := by
      rw [linesFrom_eq_mapIdx, List.mem_mapIdx]
      exact ⟨k, hk, rfl⟩
    have hdecode := ((reads_of_allBytes hbytes hcode).decode hline).1
    exact ⟨hdecode, widthAt?_of_decode hdecode⟩
  · rw [disassemble_of_allBytes hbytes, linesFrom_eq_mapIdx]
    simp [Listing.isComplete]
  · intro js before hjs
    rw [hwrite] at hjs
    obtain ⟨other, hother, heq⟩ := writeAll_eq_ok.mp hjs
    have hsame : other = bytes := by simpa [Array.append_right_inj] using heq.symm
    exact allBytes?_injective (hsame ▸ hother) hbytes

def backJump : List Instruction :=
  [.testRange 97 102, .jumpNeq (.offset (-6)), .setFlag true, .jumpPos 300, .accept]

theorem backJump_reads_back : ∃ bytes : Array UInt8, bytes.size = 16 ∧
    writeAll backJump #[12] = .ok (#[12] ++ bytes) ∧
    decode (#[12] ++ bytes ++ #[255]) 4 = .ok (.jumpNeq (.offset (-6))) := by
  obtain ⟨bytes, hsize, hwrite, hdecode, -⟩ := exists_bytes_read_back backJump (by
    simp [backJump, Resolved, jumpTarget?])
  exact ⟨bytes, hsize, hwrite #[12], (hdecode #[12] #[255] 1 (by decide)).1⟩

end PatternEngine.Instruction

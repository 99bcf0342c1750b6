import PatternEngine.Proofs.Sequences

/-!
# Jumps that are refused

A jump without a distance is refused when its opcode is already written, and the
opcode stays. Whoever goes on behind a refusal has a byte in the buffer that
belongs to no instruction. Main statement: instructions that are encoded one after
another come to the bytes of those that were not refused exactly when none was.
-/

namespace PatternEngine.Instruction

/-- Encodes instructions one after another, and goes on behind a refusal. -/
def encodeEach : List Instruction → Array UInt8 → Array UInt8 × List (Except CompileError Unit)
  | [], buffer => (buffer, [])
  | i :: rest, buffer =>
    let (written, result) := i.encode buffer
    let (final, results) := encodeEach rest written
    (final, result :: results)

/-- The bytes that stay in a buffer, refused or not. -/
def left (i : Instruction) : List UInt8 := i.opcode.toByte :: i.operands?.getD []

/-- The bytes of all instructions that are not refused, in order. -/
def acceptedBytes (is : List Instruction) : List UInt8 := (is.filterMap bytes?).flatten

/-! ### One instruction -/

theorem bytes?_of_resolved {i : Instruction} (h : i.Resolved) : i.bytes? = some i.left := by
  obtain ⟨bytes, hbytes⟩ := Option.isSome_iff_exists.mp (isSome_bytes?_iff.mpr h)
  obtain ⟨operands, hop, rfl⟩ := Option.map_eq_some_iff.mp hbytes
  rw [hbytes, left, hop, Option.getD_some]

theorem bytes?_of_not_resolved {i : Instruction} (h : ¬ i.Resolved) : i.bytes? = none := by
  rwa [← isSome_bytes?_iff, Option.not_isSome_iff_eq_none] at h

theorem operands?_of_not_resolved {i : Instruction} (h : ¬ i.Resolved) : i.operands? = none :=
  Option.map_eq_none_iff.mp (bytes?_of_not_resolved h)

theorem encode_of_resolved {i : Instruction} (h : i.Resolved) (buffer : Array UInt8) :
    i.encode buffer = (buffer ++ i.left.toArray, .ok ()) :=
  encode_eq_append (bytes?_of_resolved h) buffer

theorem encode_of_not_resolved {i : Instruction} (h : ¬ i.Resolved) (buffer : Array UInt8) :
    i.encode buffer = (buffer ++ i.left.toArray, .error (.unresolvedJump buffer.size)) := by
  simp only [encode, left, operands?_of_not_resolved h]
  simp

theorem encode_fst (i : Instruction) (buffer : Array UInt8) :
    (i.encode buffer).1 = buffer ++ i.left.toArray := by
  by_cases h : i.Resolved
  · rw [encode_of_resolved h]
  · rw [encode_of_not_resolved h]

theorem isOk_encode (i : Instruction) (buffer : Array UInt8) :
    (i.encode buffer).2.isOk = i.bytes?.isSome := by
  by_cases h : i.Resolved
  · rw [encode_of_resolved h, isSome_bytes?_iff.mpr h]
    rfl
  · rw [encode_of_not_resolved h, Bool.eq_false_iff.mpr (isSome_bytes?_iff.not.mpr h)]
    rfl

/-! ### Sequences -/

theorem encodeEach_fst (is : List Instruction) (buffer : Array UInt8) :
    (encodeEach is buffer).1 = buffer ++ (is.flatMap left).toArray := by
  induction is generalizing buffer with
  | nil => simp [encodeEach]
  | cons i rest ih =>
    show (encodeEach rest (i.encode buffer).1).1 = _
    rw [ih, encode_fst]
    simp

theorem isOk_encodeEach (is : List Instruction) (buffer : Array UInt8) :
    (encodeEach is buffer).2.map Except.isOk = is.map (·.bytes?.isSome) := by
  induction is generalizing buffer with
  | nil => rfl
  | cons i rest ih =>
    show (i.encode buffer).2.isOk :: (encodeEach rest (i.encode buffer).1).2.map Except.isOk = _
    rw [ih, isOk_encode, List.map_cons]

theorem flatMap_left_of_resolved {is : List Instruction} (h : ∀ i ∈ is, i.Resolved) :
    is.flatMap left = acceptedBytes is := by
  induction is with
  | nil => rfl
  | cons i rest ih =>
    obtain ⟨hi, hrest⟩ := List.forall_mem_cons.mp h
    rw [List.flatMap_cons, ih hrest, acceptedBytes, acceptedBytes,
      List.filterMap_cons_some (bytes?_of_resolved hi), List.flatten_cons]

/-- Each refusal leaves one byte too many. -/
theorem length_flatMap_left (is : List Instruction) :
    (is.flatMap left).length = (acceptedBytes is).length + is.countP (·.bytes?.isNone) := by
  induction is with
  | nil => rfl
  | cons i rest ih =>
    rw [List.flatMap_cons, List.length_append, ih, acceptedBytes, acceptedBytes]
    by_cases h : i.Resolved
    · have hbytes := bytes?_of_resolved h
      rw [List.filterMap_cons_some hbytes, List.flatten_cons, List.length_append,
        List.countP_cons_of_neg (by simp [hbytes]), Nat.add_assoc]
    · have hbytes := bytes?_of_not_resolved h
      have hleft : i.left.length = 1 := by rw [left, operands?_of_not_resolved h]; rfl
      rw [List.filterMap_cons_none hbytes, List.countP_cons_of_pos (by simp [hbytes]), hleft]
      omega

/-- Instructions that are encoded one after another leave the opcode and the
operands of those that were not refused and the bare opcode of every other one.
They leave the buffer as if the refused ones had never been there exactly when
none of them was refused, that is when every jump had a distance. -/
theorem encodeEach_eq_accepted_iff (is : List Instruction) (buffer : Array UInt8) :
    (encodeEach is buffer).2.map Except.isOk = is.map (·.bytes?.isSome) ∧
    (encodeEach is buffer).1 = buffer ++ (is.flatMap left).toArray ∧
    ((encodeEach is buffer).1 = buffer ++ (acceptedBytes is).toArray ↔ ∀ i ∈ is, i.Resolved) := by
  refine ⟨isOk_encodeEach is buffer, encodeEach_fst is buffer, ?_⟩
  rw [encodeEach_fst, Array.append_right_inj, Array.mk.injEq]
  refine ⟨fun h i hi => ?_, flatMap_left_of_resolved⟩
  have hlength := length_flatMap_left is
  rw [h, Nat.left_eq_add, List.countP_eq_zero] at hlength
  exact isSome_bytes?_iff.mp (Option.isSome_iff_ne_none.mpr (by simpa using hlength i hi))

/-- A jump to the rejection and an accept behind it: the opcode of the jump stays. -/
theorem encodeEach_keeps_refused_opcode : ¬ ∀ (is : List Instruction) (buffer : Array UInt8),
    (encodeEach is buffer).1 = buffer ++ (acceptedBytes is).toArray := by
  intro h
  exact absurd (h [.jumpEq .toFail, .accept] #[17]) (by decide)

end PatternEngine.Instruction

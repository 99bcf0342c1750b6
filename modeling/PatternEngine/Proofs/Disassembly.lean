import PatternEngine.Proofs.Sequences
import PatternEngine.Proofs.Tiling

/-!
# Listings of arbitrary bytes

Any bytes can be listed, whoever wrote them. The lines of a listing tile the
bytes up to the first place where no instruction stands, and written again they
give those bytes. The flag is the only operand that can be read from more than
one byte, so it is the only one that may be written differently. Main statement:
a listing accounts for a buffer up to the place where it ends, says why it ends
there, and keeps its lines when the buffer goes on.
-/

namespace PatternEngine

def Line.stop (line : Line) : Nat := line.offset + line.width

/-- What is written in place of a byte that an instruction was read from. Every
byte but zero sets the flag, and the flag is written as one. -/
def Instruction.rewritten (i : Instruction) (k : Nat) (byte : UInt8) : UInt8 :=
  if i.opcode = .setFlag ∧ k = 1 ∧ byte ≠ 0 then 1 else byte

namespace Listing

/-- A listing whose lines tile the start of a buffer and are written as the bytes
that they were read from. -/
structure Covers (listing : Listing) (code : Array UInt8) (stop : Nat) : Prop where
  tiles : Tiles Line.offset Line.stop listing.lines.toList 0 stop
  width_eq : ∀ line ∈ listing.lines, line.width = line.instruction.width
  stop_le : stop ≤ code.size
  written : ∃ out, Instruction.writeAll (listing.lines.toList.map Line.instruction) #[] = .ok out ∧
    out.size = stop ∧ ∀ line ∈ listing.lines, ∀ k < line.width,
      out[line.offset + k]? = code[line.offset + k]?.map (line.instruction.rewritten k)

/-- A listing that ends with its buffer, or where no instruction can be read and
for the reason that it gives. -/
structure EndsAt (listing : Listing) (code : Array UInt8) (stop : Nat) : Prop where
  complete_iff : listing.stopped = none ↔ stop = code.size
  unknownOpCode : ∀ byte, code[stop]? = some byte → OpCode.ofByte? byte = none →
    listing.stopped = some (.unknownOpCode byte stop)
  truncated : ∀ byte op, code[stop]? = some byte → OpCode.ofByte? byte = some op →
    code.size < stop + 1 + op.operandWidth ∧ listing.stopped = some (.truncated stop)

end Listing

/-! ### Operands -/

theorem Instruction.rewritten_of_ne {i : Instruction} {op : OpCode} (h : i.opcode = op)
    (hop : op ≠ .setFlag) (k : Nat) : i.rewritten k = id := by
  funext byte
  exact if_neg fun hflag => hop (h.symm.trans hflag.1)

theorem bytesOfWord_wordOfBytes (a b c d : UInt8) :
    bytesOfWord (wordOfBytes a b c d) = [a, b, c, d] := by
  have ha := a.toNat_lt
  have hb := b.toNat_lt
  have hc := c.toNat_lt
  have hd := d.toNat_lt
  have hword : (wordOfBytes a b c d).toUInt32.toNat =
      a.toNat * 2 ^ 24 + b.toNat * 2 ^ 16 + c.toNat * 2 ^ 8 + d.toNat := by
    simp only [wordOfBytes, UInt32.toUInt32_toInt32, UInt32.toNat_ofNat', Nat.shiftLeft_eq]
    omega
  simp only [bytesOfWord, hword, List.cons.injEq, and_true, ← UInt8.toNat_inj,
    UInt8.toNat_ofNat', Nat.shiftRight_eq_div_pow]
  omega

theorem OpCode.toByte_of_ofByte? {byte : UInt8} {op : OpCode} (h : ofByte? byte = some op) :
    op.toByte = byte := by
  unfold ofByte? at h
  split at h <;> cases h <;> rfl

namespace OpCode
variable {op : OpCode} {operand other : Nat → Option UInt8} {i : Instruction}

theorem read?.exists_word (h : ∀ k < 4, (operand k).isSome) : ∃ w, read?.word operand = some w := by
  obtain ⟨a, ha⟩ := Option.isSome_iff_exists.mp (h 0 (by omega))
  obtain ⟨b, hb⟩ := Option.isSome_iff_exists.mp (h 1 (by omega))
  obtain ⟨c, hc⟩ := Option.isSome_iff_exists.mp (h 2 (by omega))
  obtain ⟨d, hd⟩ := Option.isSome_iff_exists.mp (h 3 (by omega))
  exact ⟨_, read?.word_eq_some.mpr ⟨a, b, c, d, ha, hb, hc, hd, rfl⟩⟩

/-- Operands that are there can be read, whatever they are. -/
theorem exists_read (h : ∀ k < op.operandWidth, (operand k).isSome) :
    ∃ i, op.read? operand = some i := by
  cases op with
  | jumpEq | jumpNeq | jumpPos =>
    obtain ⟨w, hw⟩ := read?.exists_word h
    exact ⟨_, by rw [read?, hw]; rfl⟩
  | testSingle | setFlag | groupStart | groupEnd =>
    obtain ⟨b, hb⟩ := Option.isSome_iff_exists.mp (h 0 Nat.one_pos)
    exact ⟨_, by rw [read?, hb]; rfl⟩
  | testRange | testNegatedRange =>
    obtain ⟨lo, hlo⟩ := Option.isSome_iff_exists.mp (h 0 Nat.two_pos)
    obtain ⟨hi, hhi⟩ := Option.isSome_iff_exists.mp (h 1 Nat.one_lt_two)
    exact ⟨_, by rw [read?, hlo, hhi]; rfl⟩
  | _ => exact ⟨_, rfl⟩

/-- Reading looks at the operands alone. -/
theorem read?_congr (h : ∀ k < op.operandWidth, operand k = other k) :
    op.read? operand = op.read? other := by
  cases op with
  | jumpEq | jumpNeq | jumpPos =>
    have hword : read?.word operand = read?.word other := by
      simp only [read?.word, h 0 (by decide), h 1 (by decide), h 2 (by decide), h 3 (by decide)]
    simp only [read?, hword]
  | testSingle | setFlag | groupStart | groupEnd => simp only [read?, h 0 Nat.one_pos]
  | testRange | testNegatedRange =>
    simp only [read?, h 0 Nat.two_pos, h 1 Nat.one_lt_two]
  | _ => rfl

/-- The operands are written as they were read, save for the byte of a flag. -/
theorem operands_of_read? (h : op.read? operand = some i) : ∃ bytes, i.operands? = some bytes ∧
    ∀ k < op.operandWidth, bytes[k]? = (operand k).map (i.rewritten (k + 1)) := by
  have hword : ∀ {w}, read?.word operand = some w →
      ∀ k < 4, (bytesOfWord w)[k]? = operand k := by
    intro w hw k hk
    obtain ⟨a, b, c, d, ha, hb, hc, hd, rfl⟩ := read?.word_eq_some.mp hw
    rw [bytesOfWord_wordOfBytes]
    have hcases : k = 0 ∨ k = 1 ∨ k = 2 ∨ k = 3 := by omega
    rcases hcases with rfl | rfl | rfl | rfl <;> simp [ha, hb, hc, hd]
  have hsame := Instruction.rewritten_of_ne (of_read? h).1
  cases op with
  | jumpEq | jumpNeq | jumpPos =>
    obtain ⟨w, hw, rfl⟩ := Option.map_eq_some_iff.mp h
    refine ⟨bytesOfWord w, rfl, fun k hk => ?_⟩
    rw [hword hw k hk, hsame (by decide), Option.map_id]
    rfl
  | setFlag =>
    obtain ⟨b, hb, rfl⟩ := Option.map_eq_some_iff.mp h
    refine ⟨_, rfl, fun k hk => ?_⟩
    obtain rfl : k = 0 := Nat.lt_one_iff.mp hk
    rw [hb]
    by_cases hzero : b = 0 <;> simp [hzero, Instruction.rewritten, Instruction.opcode]
  | testSingle | groupStart | groupEnd =>
    obtain ⟨b, hb, rfl⟩ := Option.map_eq_some_iff.mp h
    refine ⟨_, rfl, fun k hk => ?_⟩
    obtain rfl : k = 0 := Nat.lt_one_iff.mp hk
    rw [hb, hsame (by decide)]
    rfl
  | testRange | testNegatedRange =>
    simp only [read?, Option.bind_eq_bind, Option.bind_eq_some_iff] at h
    obtain ⟨lo, hlo, hi, hhi, heq⟩ := h
    cases heq
    refine ⟨_, rfl, fun k hk => ?_⟩
    have hcases : k = 0 ∨ k = 1 := Nat.le_one_iff_eq_zero_or_eq_one.mp (Nat.le_of_lt_succ hk)
    rcases hcases with rfl | rfl
    · rw [hlo, hsame (by decide)]
      rfl
    · rw [hhi, hsame (by decide)]
      rfl
  | _ =>
    cases h
    exact ⟨[], rfl, fun k hk => absurd hk (Nat.not_lt_zero k)⟩

end OpCode

/-! ### Instructions -/

namespace Instruction
variable {code : Array UInt8} {pc : Nat} {i : Instruction}

theorem exists_bytes_of_decode (h : decode code pc = .ok i) : ∃ bytes, i.bytes? = some bytes ∧
    ∀ k < i.width, bytes[k]? = code[pc + k]?.map (i.rewritten k) := by
  obtain ⟨byte, op, hbyte, hop, hread⟩ := exists_read_of_decode h
  obtain ⟨operands, hoperands, hsame⟩ := OpCode.operands_of_read? hread
  have hopcode : i.opcode = op := (OpCode.of_read? hread).1
  refine ⟨i.opcode.toByte :: operands, by rw [bytes?, hoperands]; rfl, fun k hk => ?_⟩
  cases k with
  | zero =>
    rw [List.getElem?_cons_zero, hopcode, OpCode.toByte_of_ofByte? hop, Nat.add_zero, hbyte]
    simp [rewritten]
  | succ k =>
    have hk' : k < op.operandWidth := by
      rw [width, hopcode] at hk
      omega
    rw [List.getElem?_cons_succ, hsame k hk', Nat.add_assoc, Nat.add_comm 1 k]

/-- What can be read stays when more bytes follow. -/
theorem decode_of_extension (h : decode code pc = .ok i) (more : Array UInt8) :
    decode (code ++ more) pc = .ok i := by
  obtain ⟨byte, op, hbyte, hop, hread⟩ := exists_read_of_decode h
  have hstop := stop_le_size_of_decode h
  rw [width, (OpCode.of_read? hread).1] at hstop
  have hkeep : ∀ place < pc + (1 + op.operandWidth), (code ++ more)[place]? = code[place]? :=
    fun place hplace => Array.getElem?_append_left (by omega)
  have hoperands : op.read? (fun k => (code ++ more)[pc + 1 + k]?) =
      op.read? (fun k => code[pc + 1 + k]?) :=
    OpCode.read?_congr fun k hk => hkeep _ (by omega)
  simp only [decode, hkeep pc (by omega), hbyte, hop, hoperands, hread]

/-- Nothing can be read where there is no opcode, or not all of its operands. -/
theorem decode_eq_error {byte : UInt8} {op : OpCode} (hstuck : ∀ i, decode code pc ≠ .ok i)
    (hbyte : code[pc]? = some byte) (hop : OpCode.ofByte? byte = some op) :
    decode code pc = .error (.truncated pc) ∧ code.size < pc + 1 + op.operandWidth := by
  have hread : op.read? (fun k => code[pc + 1 + k]?) = none := by
    refine Option.eq_none_iff_forall_ne_some.mpr fun i hi => hstuck i ?_
    simp only [decode, hbyte, hop, hi]
  refine ⟨by simp only [decode, hbyte, hop, hread], Nat.lt_of_not_le fun hle => ?_⟩
  have hthere : ∀ k < op.operandWidth, (code[pc + 1 + k]?).isSome := by
    intro k hk
    have hlt : pc + 1 + k < code.size := by omega
    simp [hlt]
  obtain ⟨i, hi⟩ := OpCode.exists_read hthere
  rw [hread] at hi
  cases hi

end Instruction

/-! ### Lines -/

namespace Reads
variable {code : Array UInt8} {pc stop : Nat} {lines : List Line}

theorem tiles (h : Reads code pc lines stop) : Tiles Line.offset Line.stop lines pc stop := by
  induction h with
  | nil => exact .nil _
  | cons _ _ ih => exact Tiles.cons ih

theorem extend (h : Reads code pc lines stop) (more : Array UInt8) :
    Reads (code ++ more) pc lines stop := by
  induction h with
  | nil => exact .nil
  | cons hi _ ih => exact .cons (Instruction.decode_of_extension hi more) ih

/-- Lines are written as the bytes that they were read from. Any bytes in front,
as many as were there, keep each of them in its place. -/
theorem exists_bytes (h : Reads code pc lines stop) :
    ∃ bytes, Instruction.allBytes? (lines.map Line.instruction) = some bytes ∧
      pc + bytes.length = stop ∧ ∀ before : List UInt8, before.length = pc → ∀ line ∈ lines,
        ∀ k < line.width, (before ++ bytes)[line.offset + k]? =
          code[line.offset + k]?.map (line.instruction.rewritten k) := by
  induction h with
  | nil => exact ⟨[], rfl, rfl, nofun⟩
  | @cons pc stop i lines hi _ ih =>
    obtain ⟨first, hfirst, hsame⟩ := Instruction.exists_bytes_of_decode hi
    obtain ⟨rest, hrest, hlength, hall⟩ := ih
    have hwidth : first.length = i.width := Instruction.length_bytes hfirst
    have hmore : pc + (first ++ rest).length = stop := by
      rw [List.length_append]
      omega
    refine ⟨first ++ rest, Instruction.allBytes?_cons_eq_some.mpr ⟨_, _, hfirst, hrest, rfl⟩,
      hmore, fun before hbefore => List.forall_mem_cons.mpr ⟨?_, ?_⟩⟩
    · show ∀ k < i.width, (before ++ (first ++ rest))[pc + k]? = code[pc + k]?.map (i.rewritten k)
      intro k hk
      rw [← hsame k hk, List.getElem?_append_right (by omega), hbefore, Nat.add_sub_cancel_left,
        List.getElem?_append_left (hwidth ▸ hk)]
    · -- the bytes of the first line are in front of the others
      rw [← List.append_assoc]
      exact hall (before ++ first) (by rw [List.length_append]; omega)

end Reads

/-! ### Listings -/

section
variable {code : Array UInt8} {lines : List Line} {stop : Nat}

theorem covers_of_reads (h : Reads code 0 lines stop) (stopped : Option DecodeError) :
    Listing.Covers ⟨lines.toArray, stopped⟩ code stop where
  tiles := h.tiles
  width_eq _ hline := (h.decode (List.mem_toArray.mp hline)).2
  stop_le := h.stop_le (Nat.zero_le _)
  written := by
    obtain ⟨bytes, hbytes, hlength, hall⟩ := h.exists_bytes
    refine ⟨bytes.toArray, Instruction.writeAll_eq_ok.mpr ⟨bytes, hbytes, by simp⟩, ?_, ?_⟩
    · rw [← hlength, Nat.zero_add, List.size_toArray]
    · intro line hline k hk
      simpa using hall [] rfl line (List.mem_toArray.mp hline) k hk

/-- Lines that were read as far as possible are the listing. -/
theorem exists_endsAt (h : Reads code 0 lines stop)
    (hstuck : ∀ i, Instruction.decode code stop ≠ .ok i) :
    ∃ stopped, disassemble code = ⟨lines.toArray, stopped⟩ ∧
      Listing.EndsAt ⟨lines.toArray, stopped⟩ code stop := by
  obtain ⟨stopped, hstopped, hle⟩ := exists_stopped hstuck lines.toArray
  have hreason : ∀ {byte cause}, code[stop]? = some byte →
      Instruction.decode code stop = .error cause → stopped = some cause := by
    intro byte cause hbyte hcause
    have hlt := (Array.getElem?_eq_some_iff.mp hbyte).1
    rw [disassembleFrom_of_error hlt hcause] at hstopped
    exact (congrArg Listing.stopped hstopped).symm
  refine ⟨stopped, ?_, ⟨?_, ?_⟩, ?_, ?_⟩
  · rw [disassemble, disassembleFrom_of_reads h, Array.empty_append, hstopped]
  · exact fun hnone => Nat.le_antisymm (h.stop_le (Nat.zero_le _)) (hle hnone)
  · rintro rfl
    rw [disassembleFrom_of_le (Nat.le_refl _)] at hstopped
    exact (congrArg Listing.stopped hstopped).symm
  · exact fun byte hbyte hop => hreason hbyte (by simp only [Instruction.decode, hbyte, hop])
  · intro byte op hbyte hop
    obtain ⟨herror, hshort⟩ := Instruction.decode_eq_error hstuck hbyte hop
    exact ⟨hshort, hreason hbyte herror⟩

end

/-- The listing of any buffer accounts for the bytes up to the place where it
ends. It ends there with the buffer or because no instruction follows, and any
bytes behind the buffer only add lines. -/
theorem disassemble_accounts_for_bytes (code : Array UInt8) :
    ∃ stop, (disassemble code).Covers code stop ∧ (disassemble code).EndsAt code stop ∧
      ∀ more, (disassemble code).lines.toList <+: (disassemble (code ++ more)).lines.toList := by
  obtain ⟨lines, stop, hlines, hstuck⟩ := exists_reads code 0
  obtain ⟨stopped, hlisting, hends⟩ := exists_endsAt hlines hstuck
  rw [hlisting]
  refine ⟨stop, covers_of_reads hlines stopped, hends, fun more => ?_⟩
  obtain ⟨others, stop', hothers, hstuck'⟩ := exists_reads (code ++ more) stop
  obtain ⟨stopped', hlonger, -⟩ := exists_endsAt ((hlines.extend more).append hothers) hstuck'
  rw [hlonger]
  exact List.prefix_append lines others

/-- Behind a flag that is set by a seven stands a range with one bound only. -/
example : disassemble #[14, 7, 2, 97] = ⟨#[⟨0, .setFlag true, 2⟩], some (.truncated 2)⟩ ∧
    Instruction.writeAll [.setFlag true] #[] = .ok #[14, 1] := by
  constructor <;> cbv

end PatternEngine

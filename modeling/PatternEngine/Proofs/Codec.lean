import Mathlib
import PatternEngine.Listing

/-!
# Reading back what was written

The bytes of an instruction read back as that instruction wherever they stand,
and what can be read is as wide as the opcode at its start says. The boundaries
of a program are the places that reading instruction after instruction comes by,
and every boundary with an instruction has its line in the listing.
-/

namespace PatternEngine

theorem wordOfBytes_bytesOfWord (w : Int32) :
    ∃ a b c d, bytesOfWord w = [a, b, c, d] ∧ wordOfBytes a b c d = w := by
  refine ⟨_, _, _, _, rfl, ?_⟩
  have hlt : w.toUInt32.toNat < 2 ^ 32 := w.toUInt32.toNat_lt
  have hsum : ∀ n < 2 ^ 32, (n >>> 24 % 2 ^ 8) <<< 24 + (n >>> 16 % 2 ^ 8) <<< 16 +
      (n >>> 8 % 2 ^ 8) <<< 8 + n % 2 ^ 8 = n := by
    intro n hn
    omega
  simp only [wordOfBytes, UInt8.toNat_ofNat', hsum _ hlt, UInt32.ofNat_toNat,
    Int32.toInt32_toUInt32]

theorem OpCode.read?.word_eq_some {operand : Nat → Option UInt8} {w : Int32} :
    read?.word operand = some w ↔ ∃ a b c d, operand 0 = some a ∧ operand 1 = some b ∧
      operand 2 = some c ∧ operand 3 = some d ∧ wordOfBytes a b c d = w := by
  simp only [word, Option.bind_eq_bind, Option.bind_eq_some_iff, Option.pure_def,
    Option.some.injEq, exists_and_left]

theorem OpCode.isSome_of_word {operand : Nat → Option UInt8} {w : Int32}
    (h : read?.word operand = some w) : ∀ k < 4, (operand k).isSome := by
  obtain ⟨a, b, c, d, ha, hb, hc, hd, -⟩ := read?.word_eq_some.mp h
  intro k hk
  have hcases : k = 0 ∨ k = 1 ∨ k = 2 ∨ k = 3 := by omega
  rcases hcases with rfl | rfl | rfl | rfl <;> simp [ha, hb, hc, hd]

/-- What is read has the opcode it was read for, and all its operands are there. -/
theorem OpCode.of_read? {op : OpCode} {operand : Nat → Option UInt8} {i : Instruction}
    (h : op.read? operand = some i) :
    i.opcode = op ∧ ∀ k < op.operandWidth, (operand k).isSome := by
  cases op with
  | jumpEq | jumpNeq | jumpPos =>
    obtain ⟨w, hw, rfl⟩ := Option.map_eq_some_iff.mp h
    exact ⟨rfl, isSome_of_word hw⟩
  | testSingle | setFlag | groupStart | groupEnd =>
    obtain ⟨b, hb, rfl⟩ := Option.map_eq_some_iff.mp h
    refine ⟨rfl, fun k hk => ?_⟩
    obtain rfl : k = 0 := Nat.lt_one_iff.mp hk
    simp [hb]
  | testRange | testNegatedRange =>
    simp only [read?, Option.bind_eq_bind, Option.bind_eq_some_iff] at h
    obtain ⟨lo, hlo, hi, hhi, heq⟩ := h
    cases heq
    refine ⟨rfl, fun k hk => ?_⟩
    have hcases : k = 0 ∨ k = 1 := Nat.le_one_iff_eq_zero_or_eq_one.mp (Nat.le_of_lt_succ hk)
    rcases hcases with rfl | rfl <;> simp [hlo, hhi]
  | _ =>
    cases h
    exact ⟨rfl, fun k hk => absurd hk (Nat.not_lt_zero k)⟩

namespace Instruction

/-- The opcode and the operands, or nothing for a jump without a distance. -/
def bytes? (i : Instruction) : Option (List UInt8) := i.operands?.map (i.opcode.toByte :: ·)

theorem length_bytes {i : Instruction} {bytes : List UInt8} (h : i.bytes? = some bytes) :
    bytes.length = i.width := by
  obtain ⟨operands, hop, rfl⟩ := Option.map_eq_some_iff.mp h
  cases i with
  | jumpEq target | jumpNeq target =>
    obtain ⟨w, -, rfl⟩ := Option.map_eq_some_iff.mp hop
    rfl
  | _ => cases hop; rfl

theorem encode_eq_append {i : Instruction} {bytes : List UInt8} (h : i.bytes? = some bytes)
    (buffer : Array UInt8) : i.encode buffer = (buffer ++ bytes.toArray, .ok ()) := by
  obtain ⟨operands, hop, rfl⟩ := Option.map_eq_some_iff.mp h
  have hpush : ∀ (l : List UInt8) (a : Array UInt8), l.foldl Array.push a = a ++ l.toArray := by
    intro l a
    simp
  simp only [encode, hop, hpush]
  simp

theorem read?_operands {i : Instruction} {operands : List UInt8}
    (h : i.operands? = some operands) {operand : Nat → Option UInt8}
    (hread : ∀ k < operands.length, operand k = operands[k]?) :
    i.opcode.read? operand = some i := by
  have hword : ∀ w, operands = bytesOfWord w → OpCode.read?.word operand = some w := by
    rintro w rfl
    obtain ⟨a, b, c, d, hw, hback⟩ := wordOfBytes_bytesOfWord w
    rw [hw] at hread
    simp [OpCode.read?.word, hread 0, hread 1, hread 2, hread 3, hback]
  cases i with
  | jumpEq target | jumpNeq target =>
    cases target with
    | offset w => simp [opcode, OpCode.read?, hword w (Option.some.inj h).symm]
    | unresolved | toFail => cases h
  | jumpPos w => simp [opcode, OpCode.read?, hword w (Option.some.inj h).symm]
  | testRange lo hi | testNegatedRange lo hi =>
    cases h
    simp [opcode, OpCode.read?, hread 0, hread 1]
  | setFlag value =>
    cases h
    cases value <;> simp [opcode, OpCode.read?, hread 0]
  | testSingle b | groupStart b | groupEnd b =>
    cases h
    simp [opcode, OpCode.read?, hread 0]
  | _ => rfl

/-- The bytes of an instruction read back in every context. -/
theorem decode_append {i : Instruction} {bytes : List UInt8} (h : i.bytes? = some bytes)
    {code : Array UInt8} {before after : List UInt8}
    (hcode : code.toList = before ++ bytes ++ after) : decode code before.length = .ok i := by
  obtain ⟨operands, hop, rfl⟩ := Option.map_eq_some_iff.mp h
  have hget : ∀ k, code[before.length + k]? = (i.opcode.toByte :: operands ++ after)[k]? := by
    intro k
    rw [← Array.getElem?_toList, hcode, List.append_assoc,
      List.getElem?_append_right (by omega), Nat.add_sub_cancel_left]
  have hread : ∀ k < operands.length, code[before.length + 1 + k]? = operands[k]? := by
    intro k hk
    rw [Nat.add_assoc, hget, Nat.add_comm 1 k, List.cons_append, List.getElem?_cons_succ,
      List.getElem?_append_left hk]
  have hfirst := hget 0
  rw [Nat.add_zero, List.cons_append, List.getElem?_cons_zero] at hfirst
  simp only [decode, hfirst, OpCode.ofByte?_toByte, read?_operands hop hread]

theorem lt_size_of_decode {code : Array UInt8} {pc : Nat} {i : Instruction}
    (h : decode code pc = .ok i) : pc < code.size := by
  refine Nat.lt_of_not_le fun hge => ?_
  rw [decode, Array.getElem?_eq_none hge] at h
  cases h

/-- Reading finds an opcode and then its operands behind it. -/
theorem exists_read_of_decode {code : Array UInt8} {pc : Nat} {i : Instruction}
    (h : decode code pc = .ok i) : ∃ byte op, code[pc]? = some byte ∧
      OpCode.ofByte? byte = some op ∧ op.read? (fun k => code[pc + 1 + k]?) = some i := by
  unfold decode at h
  split at h
  · cases h
  · rename_i byte hbyte
    split at h
    · cases h
    · rename_i op hop
      split at h
      · cases h
      · rename_i hread
        cases h
        exact ⟨byte, op, hbyte, hop, hread⟩

/-- Every jump that can be read has a distance. -/
theorem exists_distance_of_decode {code : Array UInt8} {pc : Nat} {i : Instruction}
    {target : JumpTarget} (h : decode code pc = .ok i) (ht : i.jumpTarget? = some target) :
    ∃ distance, target = .offset distance := by
  obtain ⟨-, op, -, -, hop⟩ := exists_read_of_decode h
  cases i with
  | jumpEq t | jumpNeq t =>
    cases ht
    cases op <;> simp [OpCode.read?, Option.bind_eq_some_iff] at hop
    obtain ⟨distance, -, rfl⟩ := hop
    exact ⟨distance, rfl⟩
  | _ => cases ht

/-- An instruction that can be read ends inside the buffer. -/
theorem stop_le_size_of_decode {code : Array UInt8} {pc : Nat} {i : Instruction}
    (h : decode code pc = .ok i) : pc + i.width ≤ code.size := by
  have hpc := lt_size_of_decode h
  obtain ⟨-, op, -, -, hread⟩ := exists_read_of_decode h
  obtain ⟨hopcode, hoperands⟩ := OpCode.of_read? hread
  rw [width, hopcode]
  cases hwidth : op.operandWidth with
  | zero => omega
  | succ n =>
    have hlast : pc + 1 + n < code.size := by simpa using hoperands n (by omega)
    omega

/-- The width of an instruction by the opcode at its start. -/
def widthAt? (code : Array UInt8) (pc : Nat) : Option Nat :=
  (code[pc]?.bind OpCode.ofByte?).map fun op => 1 + op.operandWidth

theorem widthAt?_of_decode {code : Array UInt8} {pc : Nat} {i : Instruction}
    (h : decode code pc = .ok i) : widthAt? code pc = some i.width := by
  obtain ⟨byte, op, hbyte, hop, hread⟩ := exists_read_of_decode h
  rw [widthAt?, hbyte, Option.bind_some, hop, Option.map_some, width, (OpCode.of_read? hread).1]

end Instruction

/-! ### Boundaries -/

def Follows (code : Array UInt8) (pc next : Nat) : Prop :=
  ∃ i, Instruction.decode code pc = .ok i ∧ next = pc + i.width

/-- A place that reading instruction after instruction comes by. -/
def Boundary (code : Array UInt8) (pc : Nat) : Prop := Relation.ReflTransGen (Follows code) 0 pc

theorem Boundary.next {code : Array UInt8} {pc : Nat} {i : Instruction} (h : Boundary code pc)
    (hi : Instruction.decode code pc = .ok i) : Boundary code (pc + i.width) :=
  Relation.ReflTransGen.tail h ⟨i, hi, rfl⟩

theorem mem_disassembleFrom {code : Array UInt8} {pc : Nat} {lines : Array Line} {line : Line}
    (h : line ∈ lines) : line ∈ (disassembleFrom code pc lines).lines := by
  fun_induction disassembleFrom code pc lines with
  | case1 pc lines hlt i hi ih => exact ih (Array.mem_push_of_mem _ h)
  | case2 pc lines hlt cause hcause => exact h
  | case3 pc lines hge => exact h

theorem Boundary.exists_line {code : Array UInt8} {pc : Nat} {i : Instruction}
    (h : Boundary code pc) (hi : Instruction.decode code pc = .ok i) :
    ⟨pc, i, i.width⟩ ∈ (disassemble code).lines := by
  suffices hfrom : ∀ start, Relation.ReflTransGen (Follows code) start pc →
      ∀ lines, ⟨pc, i, i.width⟩ ∈ (disassembleFrom code start lines).lines from hfrom 0 h #[]
  intro start hstart
  induction hstart using Relation.ReflTransGen.head_induction_on with
  | refl =>
    intro lines
    rw [disassembleFrom, if_pos (Instruction.lt_size_of_decode hi), hi]
    exact mem_disassembleFrom (Array.mem_push_self)
  | head hstep _ ih =>
    intro lines
    obtain ⟨j, hj, rfl⟩ := hstep
    rw [disassembleFrom, if_pos (Instruction.lt_size_of_decode hj), hj]
    exact ih _

end PatternEngine

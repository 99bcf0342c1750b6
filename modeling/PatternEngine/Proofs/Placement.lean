import PatternEngine.Program
import PatternEngine.Proofs.Codec

/-!
# Code in its place

A piece stands at a place of a program when the program has, on a boundary
there, the instruction that the piece resolves to. Assembly puts every piece of
a layout in its place.
-/

namespace PatternEngine

/-- Each piece has a property together with the place where it stands. -/
def Placed (holds : Nat → Piece → Prop) : Nat → List Piece → Prop
  | _, [] => True
  | pc, p :: rest => holds pc p ∧ Placed holds (pc + p.width) rest

/-- Pieces stand one after another in a program that rejects at `failAt`. -/
def Stands (code : Array UInt8) (failAt : Nat) : Nat → List Piece → Prop :=
  Placed fun pc p => Boundary code pc ∧
    ∃ i, p.resolve failAt pc = .ok i ∧ Instruction.decode code pc = .ok i

/-- A piece is read back in its place as the instruction that it resolves to. -/
def Encoded (code : Array UInt8) (failAt pc : Nat) (p : Piece) : Prop :=
  ∃ i, p.resolve failAt pc = .ok i ∧ Instruction.decode code pc = .ok i

def Code.StandsAt (c : Code) (code : Array UInt8) (failAt pc : Nat) : Prop :=
  Stands code failAt pc c.pieces

theorem Rope.sum_width_pieces {n : Nat} (r : Rope n) : (r.pieces.map Piece.width).sum = n := by
  induction r with
  | nil => rfl
  | piece p => simp [pieces]
  | append first second ih₁ ih₂ => simp [pieces, ih₁, ih₂]
  | block inner ih => exact ih

theorem Code.sum_width_pieces (c : Code) : (c.pieces.map Piece.width).sum = c.size :=
  c.rope.sum_width_pieces

theorem placed_append {holds : Nat → Piece → Prop} {pc : Nat} {ps qs : List Piece} :
    Placed holds pc (ps ++ qs) ↔
      Placed holds pc ps ∧ Placed holds (pc + (ps.map Piece.width).sum) qs := by
  induction ps generalizing pc with
  | nil => simp [Placed]
  | cons p ps ih =>
    simp only [List.cons_append, Placed, ih, List.map_cons, List.sum_cons, Nat.add_assoc,
      and_assoc]

theorem Placed.mono {holds other : Nat → Piece → Prop} {pc : Nat} {ps : List Piece}
    (h : Placed holds pc ps) (hother : ∀ pc, ∀ p ∈ ps, holds pc p → other pc p) :
    Placed other pc ps := by
  induction ps generalizing pc with
  | nil => trivial
  | cons p ps ih =>
    exact ⟨hother pc p (List.mem_cons_self ..) h.1,
      ih h.2 fun pc q hq => hother pc q (List.mem_cons_of_mem p hq)⟩

theorem Placed.and {holds other : Nat → Piece → Prop} {pc : Nat} {ps : List Piece}
    (h : Placed holds pc ps) (hother : Placed other pc ps) :
    Placed (fun pc p => holds pc p ∧ other pc p) pc ps := by
  induction ps generalizing pc with
  | nil => trivial
  | cons p ps ih => exact ⟨⟨h.1, hother.1⟩, ih h.2 hother.2⟩

theorem placed_le {pc stop : Nat} {ps : List Piece} (h : pc + (ps.map Piece.width).sum ≤ stop) :
    Placed (fun pc p => pc + p.width ≤ stop) pc ps := by
  induction ps generalizing pc with
  | nil => trivial
  | cons p ps ih =>
    rw [List.map_cons, List.sum_cons, ← Nat.add_assoc] at h
    exact ⟨Nat.le_trans (Nat.le_add_right ..) h, ih h⟩

section
variable {code : Array UInt8} {failAt pc : Nat}

theorem Code.standsAt_append {a b : Code} : (a ++ b).StandsAt code failAt pc ↔
    a.StandsAt code failAt pc ∧ b.StandsAt code failAt (pc + a.size) := by
  simp only [StandsAt, Stands, pieces_append, placed_append, sum_width_pieces]

theorem Code.standsAt_block {a : Code} :
    a.block.StandsAt code failAt pc ↔ a.StandsAt code failAt pc := Iff.rfl

theorem Code.standsAt_piece {p : Piece} : (piece p).StandsAt code failAt pc ↔
    Boundary code pc ∧ ∃ i, p.resolve failAt pc = .ok i ∧ Instruction.decode code pc = .ok i := by
  simp only [StandsAt, pieces_piece, Stands, Placed, and_true]

end

/-! ### Assembly -/

theorem displacement_eq_ok {distance : Int} {w : Int32} (h : displacement distance = .ok w) :
    w.toInt = distance := by
  unfold displacement at h
  split at h
  · cases h
    exact Int32.toInt_ofInt_of_le (by omega) (by omega)
  · cases h

namespace Piece

theorem resolve_jumpIf {flag : Bool} {distance : Int} {failAt pc : Nat} {i : Instruction}
    (h : (Piece.jumpIf flag distance).resolve failAt pc = .ok i) :
    ∃ w : Int32, w.toInt = distance ∧
      i = if flag then .jumpEq (.offset w) else .jumpNeq (.offset w) := by
  cases flag <;>
  · simp only [resolve] at h
    cases hw : displacement distance with
    | error e => rw [hw] at h; cases h
    | ok w =>
      rw [hw] at h
      cases h
      exact ⟨w, displacement_eq_ok hw, rfl⟩

theorem resolve_rejectUnlessFlag {failAt pc : Nat} {i : Instruction}
    (h : Piece.rejectUnlessFlag.resolve failAt pc = .ok i) :
    ∃ w : Int32, w.toInt = failAt - (pc + jumpWidth : Nat) ∧ i = .jumpNeq (.offset w) := by
  simp only [resolve] at h
  cases hw : displacement (failAt - (pc + jumpWidth : Nat)) with
  | error e => rw [hw] at h; cases h
  | ok w =>
    rw [hw] at h
    cases h
    exact ⟨w, displacement_eq_ok hw, rfl⟩

theorem resolve_rewind {count failAt pc : Nat} {i : Instruction}
    (h : (Piece.rewind count).resolve failAt pc = .ok i) :
    ∃ w : Int32, w.toInt = -count ∧ i = .jumpPos w := by
  simp only [resolve] at h
  split at h
  · rename_i hle
    cases h
    have hle : count ≤ 2147483647 := hle
    exact ⟨_, Int32.toInt_ofInt_of_le (by omega) (by omega), rfl⟩
  · cases h

theorem width_of_resolve {p : Piece} {failAt pc : Nat} {i : Instruction}
    (h : p.resolve failAt pc = .ok i) : i.width = p.width := by
  cases p with
  | plain j => cases h; rfl
  | jumpIf flag distance =>
    obtain ⟨w, -, rfl⟩ := resolve_jumpIf h
    cases flag <;> rfl
  | rejectUnlessFlag =>
    obtain ⟨w, -, rfl⟩ := resolve_rejectUnlessFlag h
    rfl
  | rewind count =>
    obtain ⟨w, -, rfl⟩ := resolve_rewind h
    rfl

end Piece

theorem Instruction.write_eq_ok {i : Instruction} {buffer out : Array UInt8}
    (h : i.write buffer = .ok out) :
    ∃ bytes, i.bytes? = some bytes ∧ out = buffer ++ bytes.toArray := by
  cases hb : i.bytes? with
  | none =>
    have hop : i.operands? = none := by simpa [bytes?] using hb
    simp [write, encode, hop] at h
  | some bytes =>
    simp only [write, encode_eq_append hb] at h
    cases h
    exact ⟨bytes, rfl, rfl⟩

/-- The pieces of a rope are read back in their places, whatever follows them. -/
theorem Rope.placed_of_write {n : Nat} {r : Rope n} {failAt : Nat} {buffer out : Array UInt8}
    (h : r.write failAt buffer = .ok out) :
    ∃ bytes, out.toList = buffer.toList ++ bytes ∧ bytes.length = n ∧
      ∀ {code : Array UInt8} {after : List UInt8}, code.toList = out.toList ++ after →
        Placed (Encoded code failAt) buffer.size r.pieces := by
  induction r generalizing buffer out with
  | nil =>
    cases h
    exact ⟨[], by simp, rfl, fun _ => trivial⟩
  | piece p =>
    simp only [write] at h
    split at h
    · rename_i i hi
      obtain ⟨bytes, hbytes, rfl⟩ := Instruction.write_eq_ok h
      have hlen : bytes.length = p.width :=
        (Instruction.length_bytes hbytes).trans (Piece.width_of_resolve hi)
      refine ⟨bytes, by simp, hlen, fun hcode => ⟨⟨i, hi, ?_⟩, trivial⟩⟩
      rw [← Array.length_toList]
      exact Instruction.decode_append hbytes (by simpa using hcode)
    · cases h
  | append first second ih₁ ih₂ =>
    simp only [write] at h
    split at h
    · rename_i middle hfirst
      obtain ⟨bytes₁, hout₁, hlen₁, hplaced₁⟩ := ih₁ hfirst
      obtain ⟨bytes₂, hout₂, hlen₂, hplaced₂⟩ := ih₂ h
      refine ⟨bytes₁ ++ bytes₂, by rw [hout₂, hout₁, List.append_assoc], by simp [hlen₁, hlen₂], ?_⟩
      intro code after hcode
      have hmiddle : code.toList = middle.toList ++ (bytes₂ ++ after) := by
        rw [hcode, hout₂, List.append_assoc]
      have hsize : middle.size = buffer.size + (first.pieces.map Piece.width).sum := by
        rw [first.sum_width_pieces, ← hlen₁, ← Array.length_toList, hout₁]
        simp
      exact placed_append.mpr ⟨hplaced₁ hmiddle, hsize ▸ hplaced₂ hcode⟩
    · cases h
  | block inner ih => exact ih h

theorem Rope.size_of_write {n : Nat} {r : Rope n} {failAt : Nat} {buffer out : Array UInt8}
    (h : r.write failAt buffer = .ok out) : out.size = buffer.size + n := by
  obtain ⟨bytes, hout, hlength, -⟩ := placed_of_write h
  rw [← Array.length_toList, hout, List.length_append, Array.length_toList, hlength]

/-- Pieces that are read back from a boundary on stand on boundaries. -/
theorem Placed.stands {code : Array UInt8} {failAt pc : Nat} {ps : List Piece}
    (h : Placed (Encoded code failAt) pc ps) (hb : Boundary code pc) :
    Stands code failAt pc ps ∧ Boundary code (pc + (ps.map Piece.width).sum) := by
  induction ps generalizing pc with
  | nil => exact ⟨trivial, hb⟩
  | cons p ps ih =>
    obtain ⟨⟨i, hi, hdecode⟩, hrest⟩ := h
    have hnext := hb.next hdecode
    rw [Piece.width_of_resolve hi] at hnext
    obtain ⟨hstands, hstop⟩ := ih hrest hnext
    rw [List.map_cons, List.sum_cons, ← Nat.add_assoc]
    exact ⟨⟨⟨hb, i, hi, hdecode⟩, hstands⟩, hstop⟩

theorem Rope.stands_of_write {n : Nat} {r : Rope n} {failAt : Nat} {buffer out : Array UInt8}
    (h : r.write failAt buffer = .ok out) :
    ∃ bytes, out.toList = buffer.toList ++ bytes ∧ bytes.length = n ∧
      ∀ {code : Array UInt8} {after : List UInt8}, code.toList = out.toList ++ after →
        Boundary code buffer.size →
          Stands code failAt buffer.size r.pieces ∧ Boundary code out.size := by
  obtain ⟨bytes, hout, hlength, hplaced⟩ := placed_of_write h
  refine ⟨bytes, hout, hlength, fun hcode hb => ?_⟩
  have hstands := (hplaced hcode).stands hb
  rwa [r.sum_width_pieces, ← size_of_write h] at hstands

namespace Layout

variable {layout : Layout} {limit : Nat} {code : Array UInt8}

theorem write_of_assemble (h : layout.assemble limit = .ok code) :
    layout.code.rope.write layout.failAt #[] = .ok code ∧ verify code = .ok () := by
  simp only [assemble] at h
  split at h
  · cases h
  · cases hw : layout.code.rope.write layout.failAt #[] with
    | error e => rw [hw] at h; cases h
    | ok out =>
      cases hv : verify out with
      | error e => simp [hw, hv, bind, Except.bind] at h
      | ok u =>
        simp only [hw, hv, bind, Except.bind, pure, Except.pure, Except.ok.injEq] at h
        subst h
        exact ⟨rfl, hv⟩

theorem standsAt_of_write (h : layout.code.rope.write layout.failAt #[] = .ok code) :
    layout.code.StandsAt code layout.failAt 0 := by
  obtain ⟨bytes, -, -, hstands⟩ := Rope.stands_of_write h
  have hwhole : code.toList = code.toList ++ [] := (List.append_nil _).symm
  exact (hstands hwhole Relation.ReflTransGen.refl).1

/-- Every piece of an assembled layout stands in its place. -/
theorem standsAt_of_assemble (h : layout.assemble limit = .ok code) :
    layout.code.StandsAt code layout.failAt 0 := standsAt_of_write (write_of_assemble h).1

end Layout

end PatternEngine

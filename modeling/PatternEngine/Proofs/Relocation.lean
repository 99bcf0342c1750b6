import PatternEngine.Proofs.CheckedRuns
import PatternEngine.Proofs.Fitting
import PatternEngine.Proofs.Simulation

/-!
# Code that is moved

What an instruction does depends on the bytes from the cursor on and on the
distance of its jump, so a state does the same with more of a program and more of
a subject in front. Among the pieces of code only a jump to the rejection knows
where it stands, and from every other piece control goes on to a cut of the code.
-/

namespace PatternEngine

/-! ### States -/

namespace Machine

/-- A state as it is with more of a program and more of a subject in front. -/
def State.shift (s : State) (start ahead : Nat) : State := ⟨start + s.pc, ahead + s.cursor, s.flag⟩

theorem State.shift_moved (s : State) (width cursor start ahead : Nat) (flag : Bool) :
    State.shift ⟨s.pc + width, cursor, flag⟩ start ahead =
      ⟨start + s.pc + width, ahead + cursor, flag⟩ := by
  rw [shift, Nat.add_assoc]

section
variable {subject rest : Array UInt8} {s t : State} {start ahead : Nat}

theorem displace_add {base landing : Nat} {w : Int32} (h : displace base w = some landing)
    (start : Nat) : displace (start + base) w = some (start + landing) := by
  simp only [displace] at h
  split at h
  · cases h
  · cases h
    apply displace_eq_some
    omega

theorem jump_shift {holds : Bool} {target : JumpTarget} (h : s.jump holds target = .next t) :
    (s.shift start ahead).jump holds target = .next (t.shift start ahead) := by
  unfold State.jump at h ⊢
  by_cases hflag : s.flag = holds
  · rw [if_pos hflag] at h
    rw [if_pos (show (s.shift start ahead).flag = holds from hflag)]
    cases target with
    | offset distance =>
      cases hlanding : displace (s.pc + jumpWidth) distance with
      | none =>
        simp only [hlanding, reduceCtorEq] at h
      | some landing =>
        simp only [hlanding, Step.next.injEq] at h
        subst h
        simp only [State.shift, Nat.add_assoc, displace_add hlanding]
    | unresolved | toFail => cases h
  · rw [if_neg hflag] at h
    rw [if_neg (show (s.shift start ahead).flag ≠ holds from hflag)]
    cases h
    rfl

/-- The bytes from a cursor on, none if the cursor is past the end. -/
theorem getElem?_rest (subject : Array UInt8) (i k : Nat) :
    (subject.extract i subject.size)[k]? = subject[i + k]? := by
  rw [Array.getElem?_extract]
  split
  · rfl
  · rw [Array.getElem?_eq_none (by omega)]

/-- An instruction does to a moved state what it does to the state, if the moved
state sees the same bytes from its cursor on. -/
theorem perform_shift {i : Instruction} (hrest : ∀ k, rest[k]? = subject[ahead + k]?)
    (h : s.perform rest i = .next t) :
    (s.shift start ahead).perform subject i = .next (t.shift start ahead) := by
  cases htest : byteTest? i with
  | some holds =>
    rw [perform_test htest] at h ⊢
    cases h
    rw [State.shift_moved, hrest]
    rfl
  | none =>
    cases i with
    | testSingle | testRange | testNegatedRange | testAny | testDigit | testLowerCase
    | testUpperCase => cases htest
    | jumpEq target | jumpNeq target => exact jump_shift h
    | jumpPos distance =>
      rw [perform_jumpPos] at h ⊢
      cases hmoved : displace s.cursor distance with
      | none => rw [hmoved] at h; cases h
      | some moved =>
        rw [hmoved] at h
        cases h
        have hshifted : displace (s.shift start ahead).cursor distance = some (ahead + moved) :=
          displace_add hmoved ahead
        rw [hshifted, State.shift_moved]
        rfl
    | decPos =>
      by_cases hstart : s.cursor = 0
      · have hfault : s.perform rest .decPos = .stop (.faulted s.pc .stepBeforeStart) :=
          if_pos hstart
        rw [hfault] at h
        cases h
      · have hmoved : s.perform rest .decPos =
            .next ⟨s.pc + Instruction.decPos.width, s.cursor - 1, s.flag⟩ := if_neg hstart
        have hshifted : (s.shift start ahead).perform subject .decPos =
            .next ⟨start + s.pc + Instruction.decPos.width, ahead + s.cursor - 1, s.flag⟩ :=
          if_neg (show ahead + s.cursor ≠ 0 by omega)
        rw [hmoved] at h
        cases h
        rw [hshifted, State.shift_moved, Nat.add_sub_assoc (Nat.pos_of_ne_zero hstart)]
    | accept | fail => cases h
    | incPosEq =>
      cases h
      rw [State.shift_moved, apply_ite (ahead + ·)]
      rfl
    | _ =>
      cases h
      rw [State.shift_moved]
      rfl

end

end Machine

/-! ### Pieces by their places -/

/-- A piece has the pieces in front of it take so many bytes. -/
def PieceAt (ps : List Piece) (offset : Nat) (p : Piece) : Prop :=
  ∃ front back, ps = front ++ p :: back ∧ offset = (front.map Piece.width).sum

theorem placed_iff {holds : Nat → Piece → Prop} {start : Nat} {ps : List Piece} :
    Placed holds start ps ↔ ∀ offset p, PieceAt ps offset p → holds (start + offset) p := by
  constructor
  · rintro h offset p ⟨front, back, rfl, rfl⟩
    exact (placed_append.mp h).2.1
  · intro h
    induction ps generalizing start with
    | nil => trivial
    | cons q ps ih =>
      refine ⟨h 0 q ⟨[], ps, rfl, rfl⟩, ih ?_⟩
      rintro offset p ⟨front, back, rfl, rfl⟩
      rw [Nat.add_assoc]
      exact h _ p ⟨q :: front, back, rfl, rfl⟩

theorem PieceAt.mem {ps : List Piece} {offset : Nat} {p : Piece} (h : PieceAt ps offset p) :
    p ∈ ps := by
  obtain ⟨front, back, rfl, -⟩ := h
  exact List.mem_append_right front (List.mem_cons_self ..)

theorem PieceAt.stop_le {c : Code} {offset : Nat} {p : Piece} (h : PieceAt c.pieces offset p) :
    offset + p.width ≤ c.size := by
  have hinside : Placed (fun pc p => pc + p.width ≤ c.size) 0 c.pieces :=
    placed_le (by rw [Nat.zero_add, c.sum_width_pieces])
  have hstop := placed_iff.mp hinside offset p h
  rwa [Nat.zero_add] at hstop

namespace Code

/-- The start of a piece, or the end of the code. -/
def IsCut (c : Code) (offset : Nat) : Prop := offset = c.size ∨ ∃ p, PieceAt c.pieces offset p

variable {c : Code} {offset : Nat} {p : Piece}

theorem IsCut.le (h : c.IsCut offset) : offset ≤ c.size := by
  rcases h with rfl | ⟨p, hp⟩
  · exact Nat.le_refl _
  · exact (Nat.le_add_right ..).trans hp.stop_le

theorem isCut_next (h : PieceAt c.pieces offset p) : c.IsCut (offset + p.width) := by
  obtain ⟨front, back, hpieces, rfl⟩ := h
  cases back with
  | nil =>
    left
    rw [← c.sum_width_pieces, hpieces]
    simp
  | cons q back =>
    right
    exact ⟨q, front ++ [p], back, by simp [hpieces], by simp⟩

theorem cutsAt_isCut (c : Code) : c.CutsAt c.IsCut 0 := by
  refine ⟨placed_iff.mpr fun offset p hp => ?_, .inl (Nat.zero_add _)⟩
  rw [Nat.zero_add]
  exact .inr ⟨p, hp⟩

end Code

namespace Piece

variable {p : Piece} {i : Instruction} {failAt pc : Nat}

/-- Only a jump to the rejection depends on where it stands. -/
theorem resolve_eq_of_ne (h : p ≠ .rejectUnlessFlag) (failAt pc failAt' pc' : Nat) :
    p.resolve failAt pc = p.resolve failAt' pc' := by
  cases p with
  | plain | rewind => rfl
  | jumpIf flag distance => cases flag <;> rfl
  | rejectUnlessFlag => exact absurd rfl h

open Machine in
/-- Control goes on to the piece behind a piece or where its jump lands. -/
theorem next_pc {target : Nat → Prop} {subject : Array UInt8} {s t : State}
    (hp : p ≠ .rejectUnlessFlag) (hlands : p.LandsOn target s.pc)
    (hplain : ∀ j, p = .plain j → j.jumpTarget? = none) (hi : p.resolve failAt pc = .ok i)
    (h : s.perform subject i = .next t) : t.pc = s.pc + p.width ∨ target t.pc := by
  have hperforms := performs s subject i
  rw [h] at hperforms
  cases hperforms with
  | moveOn =>
    left
    rw [width_of_resolve hi]
  | @jump distance landing htarget hlanding =>
    right
    have hwidth := width_of_resolve hi
    cases p with
    | plain j =>
      cases hi
      rw [hplain _ rfl] at htarget
      cases htarget
    | jumpIf flag distance' =>
      obtain ⟨w, hw, rfl⟩ := resolve_jumpIf hi
      obtain ⟨place, hplace, hgood⟩ := hlands
      have hsame : w = distance := by cases flag <;> cases htarget <;> rfl
      obtain rfl : landing = place := by
        rw [hwidth, ← hsame, hw, hplace] at hlanding
        simp only [width] at hlanding
        omega
      exact hgood
    | rejectUnlessFlag => exact absurd rfl hp
    | rewind count =>
      obtain ⟨w, -, rfl⟩ := resolve_rewind hi
      cases htarget

end Piece

end PatternEngine

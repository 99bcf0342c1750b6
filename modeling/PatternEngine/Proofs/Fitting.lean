import PatternEngine.Proofs.Containment
import PatternEngine.Proofs.Lines

/-!
# Layouts that fit

Room for a layout is claimed piece by piece or block by block, but what decides
is its size alone. A layout of an expression that fits under a limit is always
assembled: its distances fit into 32 bits, its jumps land on instructions, and
the check has nothing to refuse.
-/

namespace PatternEngine

/-! ### Room -/

theorem Rope.claim_eq_ok {limit used n : Nat} (r : Rope n) (h : used + n ≤ limit) :
    r.claim limit used = .ok (used + n) := by
  induction r generalizing used with
  | nil => rfl
  | piece p => exact if_pos h
  | append first second ih₁ ih₂ =>
    rw [claim, ih₁ (by omega)]
    simp only
    rw [ih₂ (by omega), Nat.add_assoc]
  | block inner => exact if_pos h

theorem claim_of_lt {limit used amount : Nat} (h : limit < used + amount) :
    claim limit used amount = .error (used + amount) := if_neg (Nat.not_le.mpr h)

/-- A claim that fails asks for more than the limit and for no more than all of
the room. -/
theorem Rope.claim_eq_error {limit used n : Nat} (r : Rope n) (hused : used ≤ limit)
    (h : limit < used + n) :
    ∃ requested, r.claim limit used = .error requested ∧ limit < requested ∧
      requested ≤ used + n := by
  induction r generalizing used with
  | nil => exact absurd h (Nat.not_lt.mpr hused)
  | piece p => exact ⟨_, claim_of_lt h, h, Nat.le_refl _⟩
  | @append m k first second ih₁ ih₂ =>
    rw [claim]
    by_cases hfirst : used + m ≤ limit
    · rw [first.claim_eq_ok hfirst]
      obtain ⟨requested, hclaim, hlt, hle⟩ := ih₂ hfirst (by omega)
      exact ⟨requested, hclaim, hlt, by omega⟩
    · -- the first part asks for too much, so the second has no say
      obtain ⟨requested, hclaim, hlt, hle⟩ := ih₁ hused (by omega)
      rw [hclaim]
      exact ⟨requested, rfl, hlt, by omega⟩
  | block inner => exact ⟨_, claim_of_lt h, h, Nat.le_refl _⟩

/-! ### Bytes -/

theorem exists_displacement {distance : Int} (h : -2147483648 ≤ distance)
    (h' : distance ≤ 2147483647) : ∃ w, displacement distance = .ok w :=
  ⟨_, if_pos ⟨h, h'⟩⟩

namespace Piece

/-- What has been laid out under a limit when the distance of a piece is taken: a
jump and everything up to where it lands, or all that stands before a step back. -/
def Within (limit failAt pc : Nat) : Piece → Prop
  | .plain _ => True
  | .jumpIf _ distance => pc + jumpWidth ≤ limit ∧ (pc + jumpWidth : Nat) + distance ≤ limit
  | .rejectUnlessFlag => pc + jumpWidth ≤ limit ∧ failAt ≤ limit
  | .rewind _ => pc ≤ limit

theorem Within.mono {p : Piece} {failAt pc limit other : Nat} (h : p.Within limit failAt pc)
    (hle : limit ≤ other) : p.Within other failAt pc := by
  cases p with
  | plain i => trivial
  | jumpIf flag distance => exact ⟨h.1.trans hle, h.2.trans (Int.ofNat_le.mpr hle)⟩
  | rejectUnlessFlag => exact ⟨h.1.trans hle, h.2.trans hle⟩
  | rewind count => exact Nat.le_trans h hle

theorem within_of_landsOn {p : Piece} {failAt pc size : Nat} (hlands : p.LandsOn (· ≤ size) pc)
    (hpc : pc + p.width ≤ size) (hfail : failAt ≤ size) : p.Within size failAt pc := by
  cases p with
  | plain i => trivial
  | jumpIf flag distance =>
    obtain ⟨landing, rfl, hlanding⟩ := hlands
    have hlanding : landing ≤ size := hlanding
    exact ⟨hpc, by omega⟩
  | rejectUnlessFlag => exact ⟨hpc, hfail⟩
  | rewind count => exact (Nat.le_add_right ..).trans hpc

/-- Within the largest program a piece has an instruction. -/
theorem exists_resolve {p : Piece} {target : Nat → Prop} {failAt pc : Nat}
    (hlands : p.LandsOn target pc) (hwithin : p.Within maxProgramLength failAt pc)
    (hrewind : ∀ count, p = .rewind count → count ≤ maxProgramLength) :
    ∃ i, p.resolve failAt pc = .ok i := by
  have hmax : maxProgramLength = 2147483647 := rfl
  cases p with
  | plain i => exact ⟨i, rfl⟩
  | jumpIf flag distance =>
    obtain ⟨landing, hdistance, -⟩ := hlands
    obtain ⟨hpc, hlanding⟩ := hwithin
    obtain ⟨w, hw⟩ : ∃ w, displacement distance = .ok w :=
      exists_displacement (by omega) (by omega)
    cases flag <;> exact ⟨_, by rw [resolve, hw]; rfl⟩
  | rejectUnlessFlag =>
    obtain ⟨hpc, hfail⟩ := hwithin
    obtain ⟨w, hw⟩ : ∃ w, displacement (failAt - (pc + jumpWidth : Nat)) = .ok w :=
      exists_displacement (by omega) (by omega)
    exact ⟨_, by rw [resolve, hw]; rfl⟩
  | rewind count => exact ⟨_, if_pos (hrewind count rfl)⟩

theorem isSome_bytes_of_resolve {p : Piece} {failAt pc : Nat} {i : Instruction}
    (h : p.resolve failAt pc = .ok i) (hplain : ∀ j, p = .plain j → j.bytes?.isSome) :
    i.bytes?.isSome := by
  cases p with
  | plain j =>
    cases h
    exact hplain _ rfl
  | jumpIf flag distance =>
    obtain ⟨w, -, rfl⟩ := resolve_jumpIf h
    cases flag <;> rfl
  | rejectUnlessFlag =>
    obtain ⟨w, -, rfl⟩ := resolve_rejectUnlessFlag h
    rfl
  | rewind count =>
    obtain ⟨w, -, rfl⟩ := resolve_rewind h
    rfl

end Piece

theorem Rope.exists_write {n : Nat} (r : Rope n) {failAt : Nat} (buffer : Array UInt8)
    (h : Placed (fun pc p => ∃ i, p.resolve failAt pc = .ok i ∧ i.bytes?.isSome) buffer.size
      r.pieces) : ∃ out, r.write failAt buffer = .ok out := by
  induction r generalizing buffer with
  | nil => exact ⟨buffer, rfl⟩
  | piece p =>
    obtain ⟨⟨i, hi, hbytes⟩, -⟩ := h
    obtain ⟨bytes, hbytes⟩ := Option.isSome_iff_exists.mp hbytes
    refine ⟨buffer ++ bytes.toArray, ?_⟩
    simp only [write, hi, Instruction.write, Instruction.encode_eq_append hbytes]
  | append first second ih₁ ih₂ =>
    rw [pieces, placed_append, first.sum_width_pieces] at h
    obtain ⟨middle, hmiddle⟩ := ih₁ buffer h.1
    obtain ⟨out, hout⟩ := ih₂ middle (size_of_write hmiddle ▸ h.2)
    exact ⟨out, by simp only [write, hmiddle, hout]⟩
  | block inner ih => exact ih buffer h

/-! ### Lines -/

section
variable {code : Array UInt8} {failAt pc : Nat} {ps : List Piece}

/-- Pieces that stand in a program are read back as one line each, in order. -/
theorem Stands.exists_lines {holds : Nat → Piece → Prop} (h : Stands code failAt pc ps)
    (hholds : Placed holds pc ps) :
    ∃ lines, Reads code pc lines (pc + (ps.map Piece.width).sum) ∧
      List.Forall₂ (fun p line => holds line.offset p ∧
        p.resolve failAt line.offset = .ok line.instruction) ps lines := by
  induction ps generalizing pc with
  | nil => exact ⟨[], .nil, .nil⟩
  | cons p ps ih =>
    obtain ⟨⟨-, i, hi, hdecode⟩, hrest⟩ := h
    obtain ⟨lines, hlines, hall⟩ := ih hrest hholds.2
    rw [List.map_cons, List.sum_cons, ← Nat.add_assoc]
    rw [← Piece.width_of_resolve hi] at hlines ⊢
    exact ⟨_, .cons hdecode hlines, .cons ⟨hholds.1, hi⟩ hall⟩

theorem Stands.exists_reads {holds : Nat → Piece → Prop} (h : Stands code failAt pc ps)
    (hholds : Placed holds pc ps) :
    ∃ lines, Reads code pc lines (pc + (ps.map Piece.width).sum) ∧
      ∀ line ∈ lines, ∃ p ∈ ps, holds line.offset p ∧
        p.resolve failAt line.offset = .ok line.instruction := by
  obtain ⟨lines, hlines, hall⟩ := h.exists_lines hholds
  refine ⟨lines, hlines, fun line hline => ?_⟩
  obtain ⟨k, hk, rfl⟩ := List.getElem_of_mem hline
  have hk' : k < ps.length := hall.length_eq ▸ hk
  exact ⟨ps[k], List.getElem_mem hk', List.Forall₂.get hall hk' hk⟩

/-- Every piece that stands in a program is the start of a line. -/
theorem Stands.starts (h : Stands code failAt pc ps) :
    Placed (fun pc _ => ∃ line ∈ (disassemble code).lines, line.offset = pc) pc ps := by
  refine Placed.mono h fun pc p _ ⟨hboundary, i, _, hi⟩ => ?_
  exact ⟨_, hboundary.exists_line hi, rfl⟩

theorem Piece.landing_of_resolve {p : Piece} {target : Nat → Prop} {line : Line} {landing : Int}
    (hlands : p.LandsOn target line.offset) (hfail : target failAt)
    (hplain : ∀ i, p = .plain i → i.jumpTarget? = none)
    (hwidth : line.width = line.instruction.width)
    (hi : p.resolve failAt line.offset = .ok line.instruction)
    (hlanding : line.landing? = some landing) : ∃ t, target t ∧ landing = t := by
  cases p with
  | plain i =>
    cases hi
    simp [Line.landing?, hplain _ rfl] at hlanding
  | jumpIf flag distance =>
    obtain ⟨t, rfl, ht⟩ := hlands
    obtain ⟨w, hw, hinstruction⟩ := resolve_jumpIf hi
    have htarget : line.instruction.jumpTarget? = some (.offset w) := by
      rw [hinstruction]
      cases flag <;> rfl
    rw [Line.landing_of_target htarget, hwidth, width_of_resolve hi] at hlanding
    cases hlanding
    refine ⟨t, ht, ?_⟩
    rw [hw]
    exact add_sub_cancel ..
  | rejectUnlessFlag =>
    obtain ⟨w, hw, hinstruction⟩ := resolve_rejectUnlessFlag hi
    have htarget : line.instruction.jumpTarget? = some (.offset w) := by rw [hinstruction]; rfl
    rw [Line.landing_of_target htarget, hwidth, width_of_resolve hi] at hlanding
    cases hlanding
    refine ⟨failAt, hfail, ?_⟩
    rw [hw]
    exact add_sub_cancel ..
  | rewind count =>
    obtain ⟨w, -, hinstruction⟩ := resolve_rewind hi
    simp [Line.landing?, hinstruction, Instruction.jumpTarget?] at hlanding

end

/-! ### Layouts -/

namespace Layout

/-- A layout whose jumps land on its own pieces and whose pieces can be written
as soon as there is room for them. -/
structure Sound (layout : Layout) : Prop where
  lands : ∀ {target : Nat → Prop}, Placed (fun pc _ => target pc) 0 layout.code.pieces →
    Placed (fun pc p => p.LandsOn target pc) 0 layout.code.pieces ∧ target layout.failAt
  plain : ∀ i, .plain i ∈ layout.code.pieces → i.bytes?.isSome ∧ i.jumpTarget? = none
  rewind : ∀ count, .rewind count ∈ layout.code.pieces → count ≤ layout.code.size

variable {layout : Layout} {limit : Nat}

theorem Sound.within (h : layout.Sound) : Placed (fun pc p =>
      p.LandsOn (· ≤ layout.code.size) pc ∧ p.Within layout.code.size layout.failAt pc) 0
    layout.code.pieces := by
  have hinside : Placed (fun pc p => pc + p.width ≤ layout.code.size) 0 layout.code.pieces :=
    placed_le (by rw [Nat.zero_add, layout.code.sum_width_pieces])
  obtain ⟨hlands, hfail⟩ := h.lands (hinside.mono fun _ _ _ => Nat.le_of_add_right_le)
  exact (hlands.and hinside).mono fun pc p _ ⟨hland, hpc⟩ =>
    ⟨hland, Piece.within_of_landsOn hland hpc hfail⟩

theorem Sound.exists_write (h : layout.Sound) (hsize : layout.code.size ≤ maxProgramLength) :
    ∃ out, layout.code.rope.write layout.failAt #[] = .ok out := by
  refine layout.code.rope.exists_write #[] (h.within.mono fun pc p hp ⟨hland, hwithin⟩ => ?_)
  obtain ⟨i, hi⟩ := Piece.exists_resolve hland (hwithin.mono hsize) fun count hcount =>
    (h.rewind count (hcount ▸ hp)).trans hsize
  exact ⟨i, hi, Piece.isSome_bytes_of_resolve hi fun j hj => (h.plain j (hj ▸ hp)).1⟩

theorem Sound.verify_of_write (h : layout.Sound) {out : Array UInt8}
    (hout : layout.code.rope.write layout.failAt #[] = .ok out) : verify out = .ok () := by
  have hstands : Stands out layout.failAt 0 layout.code.pieces := standsAt_of_write hout
  obtain ⟨hlands, hfail⟩ := h.lands hstands.starts
  obtain ⟨lines, hlines, hall⟩ := hstands.exists_reads hlands
  rw [layout.code.sum_width_pieces] at hlines
  have hlisting := disassemble_of_reads hlines (Rope.size_of_write hout).le
  refine verify_eq_ok_iff.mpr ⟨by rw [hlisting]; rfl, fun line hline landing hlanding => ?_⟩
  have hline : line ∈ lines := by simpa [hlisting] using hline
  obtain ⟨p, hp, hland, hi⟩ := hall line hline
  obtain ⟨t, ⟨target, htarget, rfl⟩, rfl⟩ := Piece.landing_of_resolve hland hfail
    (fun i hplain => (h.plain i (hplain ▸ hp)).2) (hlines.decode hline).2 hi hlanding
  exact ⟨target, htarget, rfl⟩

/-- A sound layout is assembled whenever it fits. -/
theorem Sound.exists_assemble (h : layout.Sound) (hlimit : limit ≤ maxProgramLength)
    (hsize : layout.code.size ≤ limit) :
    ∃ code, layout.assemble limit = .ok code ∧ code.size = layout.code.size := by
  obtain ⟨out, hout⟩ := h.exists_write (hsize.trans hlimit)
  have hclaim : layout.code.claim limit 0 = .ok (0 + layout.code.size) :=
    layout.code.rope.claim_eq_ok (by rwa [Nat.zero_add])
  refine ⟨out, ?_, by simpa using Rope.size_of_write hout⟩
  simp only [assemble, hclaim, hout, bind, Except.bind, h.verify_of_write hout]
  rfl

/-- What a layout without room asks for is more than the limit and at most the
size of the layout. -/
theorem assemble_eq_error (hsize : limit < layout.code.size) : ∃ requested,
    layout.assemble limit = .error (outOfRoom limit requested) ∧ limit < requested ∧
      requested ≤ layout.code.size := by
  obtain ⟨requested, hclaim, hlt, hle⟩ :=
    layout.code.rope.claim_eq_error (Nat.zero_le limit) (by rwa [Nat.zero_add])
  rw [Nat.zero_add] at hle
  have hclaim : layout.code.claim limit 0 = .error requested := hclaim
  exact ⟨requested, by rw [assemble, hclaim], hlt, hle⟩

theorem empty_sound : empty.Sound where
  lands h := ⟨⟨trivial, trivial⟩, h.1⟩
  plain := by
    rintro i hi
    cases List.mem_singleton.mp hi
    exact ⟨rfl, rfl⟩
  rewind := by
    rintro count hcount
    cases List.mem_singleton.mp hcount

theorem pieces_ofExpr (e : Expr) : (ofExpr e).code.pieces =
    e.openCode.pieces ++ [.rejectUnlessFlag, .plain .accept, .plain .fail] := by
  simp [ofExpr, Code.plain]

theorem ofExpr_sound (e : Expr) : (ofExpr e).Sound where
  lands := by
    intro target h
    rw [pieces_ofExpr, placed_append, Code.sum_width_pieces] at h ⊢
    obtain ⟨hopen, hreject, -, hfail, -⟩ := h
    have hfailAt : (ofExpr e).failAt =
        0 + e.openCode.size + Piece.rejectUnlessFlag.width + (Piece.plain .accept).width := by
      rw [Nat.zero_add, Nat.add_assoc]
      rfl
    -- the code of the expression ends where the rejecting jump starts
    have hlands := e.openCode_selfContained.closed ⟨hopen, hreject⟩
    exact ⟨⟨hlands, trivial, trivial, trivial, trivial⟩, hfailAt ▸ hfail⟩
  plain := by
    intro i hi
    rw [pieces_ofExpr, List.mem_append] at hi
    rcases hi with hi | hi
    · have hinner : i.IsInner := e.openCode_selfContained.fits _ hi
      exact hinner.bytes_and_target
    · simp only [List.mem_cons, List.not_mem_nil, or_false, reduceCtorEq, false_or,
        Piece.plain.injEq] at hi
      rcases hi with rfl | rfl <;> exact ⟨rfl, rfl⟩
  rewind := by
    intro count hcount
    rw [pieces_ofExpr, List.mem_append] at hcount
    rcases hcount with hcount | hcount
    · have hle := (e.openCode_selfContained.fits _ hcount).2
      exact hle.trans ((Nat.le_add_right ..).trans (Nat.le_add_right ..))
    · simp at hcount

end Layout

end PatternEngine

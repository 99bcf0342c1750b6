import PatternEngine.Proofs.Relocation
import PatternEngine.Proofs.Repetition

/-!
# What a fragment says of its code

A fragment says whether its code may succeed without moving ahead, and how many
bytes a success consumes where that is fixed. The code is first run by itself on
the bytes from the cursor on. What it does there it does in every program that it
was written into, up to the first jump to the rejection that is taken, and the
cursor may even be past the end of the subject. Main statement: control leaves the
code by such a jump, or at its end in a state that the fragment describes.
-/

namespace PatternEngine
open Machine

/-- A step of the machine from a place of a stretch of the program. -/
def Machine.StepsInside (code subject : Array UInt8) (start stop : Nat) (s t : State) : Prop :=
  start ≤ s.pc ∧ s.pc < stop ∧ step code subject s = .next t

/-- Control stands in front of a jump to the rejection and takes it. -/
structure Code.Rejects (c : Code) (code subject : Array UInt8) (failAt start : Nat) (s : State) :
    Prop where
  place : ∃ offset, PieceAt c.pieces offset .rejectUnlessFlag ∧ s.pc = start + offset
  flag : s.flag = false
  step : Machine.step code subject s = .next ⟨failAt, s.cursor, false⟩

/-- The flag and the cursor at the end of a fragment are as it says. -/
structure Fragment.Describes (f : Fragment) (start : Nat) (s : State) : Prop where
  width : s.flag = true → ∀ w, f.width = some w → s.cursor = start + w
  ahead : s.flag = true → f.nullable = false → start < s.cursor
  forward : s.flag = true → start ≤ s.cursor
  undone : s.flag = false → s.cursor = start ∧ f.nullable = false

namespace Code

variable {c : Code} {code sealed subject rest : Array UInt8} {failAt start ahead : Nat}
  {s t : State}

theorem SelfContained.isInner (hc : c.SelfContained) {i : Instruction} (h : .plain i ∈ c.pieces) :
    i.IsInner := hc.fits _ h

/-! ### Code by itself -/

/-- Code that has been written somewhere can be written by itself, with the
rejection behind its end. -/
theorem exists_sealed (hc : c.SelfContained) (hsize : c.size ≤ maxProgramLength)
    (hcode : Placed (Encoded code failAt) start c.pieces) :
    ∃ sealed, c.rope.write (c.size + 1) #[] = .ok sealed := by
  refine c.rope.exists_write #[] (placed_iff.mpr fun offset p hp => ?_)
  have hresolve : ∃ i, p.resolve (c.size + 1) (0 + offset) = .ok i := by
    by_cases hreject : p = .rejectUnlessFlag
    · subst hreject
      have hstop : offset + jumpWidth ≤ c.size := hp.stop_le
      have hmax : maxProgramLength = 2147483647 := rfl
      have hwidth : jumpWidth = 5 := rfl
      obtain ⟨w, hw⟩ : ∃ w, displacement ((c.size + 1 : Nat) - (0 + offset + jumpWidth : Nat)) =
          .ok w := exists_displacement (by omega) (by omega)
      exact ⟨_, by rw [Piece.resolve, hw]; rfl⟩
    · obtain ⟨i, hi, -⟩ := placed_iff.mp hcode offset p hp
      exact ⟨i, (Piece.resolve_eq_of_ne hreject ..).trans hi⟩
  obtain ⟨i, hi⟩ := hresolve
  exact ⟨i, hi, Piece.isSome_bytes_of_resolve hi fun j hj =>
    (hc.isInner (hj ▸ hp.mem)).bytes_and_target.1⟩

/-! ### Steps -/

theorem step_rejectUnlessFlag (h : Encoded code failAt s.pc .rejectUnlessFlag) :
    step code subject s = .next ⟨if s.flag then s.pc + jumpWidth else failAt, s.cursor, s.flag⟩ := by
  obtain ⟨i, hi, hdecode⟩ := h
  obtain ⟨w, hw, rfl⟩ := Piece.resolve_rejectUnlessFlag hi
  rw [step_of_decode hdecode]
  obtain ⟨pc, cursor, flag⟩ := s
  cases flag with
  | false => exact jump_taken hw
  | true => exact (perform_jump false (.offset w) _).trans (jump_not_taken (by decide))

/-- A step of the code by itself is a step of the code in its place, unless it is
the one of a jump to the rejection. -/
theorem step_moved (hc : c.SelfContained)
    (hsealed : Placed (Encoded sealed (c.size + 1)) 0 c.pieces) (hend : sealed.size = c.size)
    (hcode : Placed (Encoded code failAt) start c.pieces)
    (hrest : ∀ k, rest[k]? = subject[ahead + k]?) (hs : c.IsCut s.pc)
    (h : step sealed rest s = .next t) :
    StepsInside code subject start (start + c.size) (s.shift start ahead) (t.shift start ahead) ∧
      c.IsCut t.pc ∨ c.Rejects code subject failAt start (s.shift start ahead) := by
  have hlt : s.pc < c.size := hend ▸ lt_size_of_step h
  obtain ⟨p, hp⟩ := hs.resolve_left hlt.ne
  have halone : Encoded sealed (c.size + 1) s.pc p := by
    simpa only [Nat.zero_add] using placed_iff.mp hsealed s.pc p hp
  have hplace : Encoded code failAt (s.shift start ahead).pc p := placed_iff.mp hcode s.pc p hp
  suffices hmoved : step code subject (s.shift start ahead) = .next (t.shift start ahead) ∧
      c.IsCut t.pc ∨ c.Rejects code subject failAt start (s.shift start ahead) from
    hmoved.imp_left fun hstep =>
      ⟨⟨Nat.le_add_right .., Nat.add_lt_add_left hlt start, hstep.1⟩, hstep.2⟩
  by_cases hreject : p = .rejectUnlessFlag
  · subst hreject
    rw [step_rejectUnlessFlag halone] at h
    have hstep : step code subject (s.shift start ahead) = _ := step_rejectUnlessFlag hplace
    cases h
    cases hflag : s.flag with
    | true =>
      left
      refine ⟨hstep.trans ?_, isCut_next hp⟩
      simp [State.shift, hflag, Nat.add_assoc]
    | false =>
      right
      exact ⟨⟨s.pc, hp, rfl⟩, hflag, by simpa [State.shift, hflag] using hstep⟩
  · left
    obtain ⟨i, hi, hdecode⟩ := halone
    obtain ⟨j, hj, hdecode'⟩ := hplace
    have hsame := Piece.resolve_eq_of_ne hreject (c.size + 1) s.pc failAt (s.shift start ahead).pc
    obtain rfl : i = j := Except.ok.inj (hi.symm.trans (hsame.trans hj))
    have hlands : p.LandsOn c.IsCut s.pc := by
      simpa only [Nat.zero_add] using placed_iff.mp (hc.closed c.cutsAt_isCut) s.pc p hp
    have hplain : ∀ j, p = .plain j → j.jumpTarget? = none :=
      fun j hj => (hc.isInner (hj ▸ hp.mem)).bytes_and_target.2
    rw [step_of_decode hdecode] at h
    refine ⟨(step_of_decode hdecode').trans (perform_shift hrest h), ?_⟩
    rcases Piece.next_pc hreject hlands hplain hi h with hnext | hland
    · exact hnext ▸ isCut_next hp
    · exact hland

/-- A path of the code by itself is a path of the code in its place, up to the first
jump to the rejection that is taken. -/
theorem exists_leaving (hc : c.SelfContained)
    (hsealed : Placed (Encoded sealed (c.size + 1)) 0 c.pieces) (hend : sealed.size = c.size)
    (hcode : Placed (Encoded code failAt) start c.pieces)
    (hrest : ∀ k, rest[k]? = subject[ahead + k]?) (hs : c.IsCut s.pc)
    (hpath : Path sealed rest s t) :
    ∃ u, Relation.ReflTransGen (StepsInside code subject start (start + c.size))
        (s.shift start ahead) u ∧
      (u = t.shift start ahead ∧ c.IsCut t.pc ∨ c.Rejects code subject failAt start u) := by
  induction hpath using Relation.ReflTransGen.head_induction_on with
  | refl => exact ⟨_, .refl, .inl ⟨rfl, hs⟩⟩
  | head hstep _ ih =>
    rcases step_moved hc hsealed hend hcode hrest hs hstep.2 with ⟨hinside, hcut⟩ | hreject
    · obtain ⟨u, hu, hleave⟩ := ih hcut
      exact ⟨u, .head hinside hu, hleave⟩
    · exact ⟨_, .refl, .inr hreject⟩

/-- Code that runs like an evaluator does so from every cursor of every program
around it: it comes to its end as the evaluator says of the bytes from the cursor
on, or to a jump to the rejection. -/
theorem Runs.exists_exit {run : Nat → Outcome}
    (hruns : c.Runs (subject.extract ahead subject.size) run) (hc : c.SelfContained)
    (hsize : c.size ≤ maxProgramLength) (hcode : Placed (Encoded code failAt) start c.pieces)
    (flag : Bool) : ∃ s, Relation.ReflTransGen (StepsInside code subject start (start + c.size))
        ⟨start, ahead, flag⟩ s ∧
      ((∃ j, run 0 = .matched j ∧ s = ⟨start + c.size, ahead + j, true⟩) ∨
        run 0 = .failed ∧ s = ⟨start + c.size, ahead, false⟩ ∨
        c.Rejects code subject failAt start s) := by
  obtain ⟨sealed, hwrite⟩ := exists_sealed hc hsize hcode
  have hstands : c.StandsAt sealed (c.size + 1) 0 :=
    @Layout.standsAt_of_write ⟨c, c.size + 1⟩ sealed hwrite
  have hsealed : Placed (Encoded sealed (c.size + 1)) 0 c.pieces :=
    Placed.mono hstands fun _ _ _ => And.right
  have hend : sealed.size = c.size := by simpa using Rope.size_of_write hwrite
  have hstart : c.IsCut 0 := c.cutsAt_isCut.start
  have hrest := getElem?_rest subject ahead
  have hleaves := hruns hstands (Nat.zero_le _) flag
  rw [Nat.zero_add] at hleaves
  cases ho : run 0 with
  | matched j =>
    rw [ho] at hleaves
    obtain ⟨s, hpath, ⟨rfl, -⟩ | hreject⟩ := 
      exists_leaving hc hsealed hend hcode hrest hstart hleaves.2
    · exact ⟨_, hpath, .inl ⟨j, rfl, rfl⟩⟩
    · exact ⟨s, hpath, .inr (.inr hreject)⟩
  | failed =>
    rw [ho] at hleaves
    obtain ⟨s, hpath, ⟨rfl, -⟩ | hreject⟩ := 
      exists_leaving hc hsealed hend hcode hrest hstart hleaves
    · exact ⟨_, hpath, .inr (.inl ⟨rfl, rfl⟩)⟩
    · exact ⟨s, hpath, .inr (.inr hreject)⟩
  | aborted =>
    rw [ho] at hleaves
    obtain ⟨j, -, hrejected⟩ := hleaves
    obtain ⟨s, hpath, ⟨-, hcut⟩ | hreject⟩ := 
      exists_leaving hc hsealed hend hcode hrest hstart hrejected
    · -- the rejection is behind the end, where no piece starts
      exact absurd hcut.le (Nat.not_succ_le_self _)
    · exact ⟨s, hpath, .inr (.inr hreject)⟩

end Code

namespace Expr

/-- Wherever the code of an expression was written, and from every cursor and flag,
control comes to its end in a state that the fragment describes, or to a jump to
the rejection that it takes. A fragment with a width is not nullable and consumes
at least one byte. -/
theorem fragment_exits_as_described (e : Expr) {failAt : Nat} {before out : Array UInt8}
    (hout : e.fragment.code.rope.write failAt before = .ok out)
    (hsize : out.size ≤ maxProgramLength) :
    (∀ w, e.fragment.width = some w → 1 ≤ w ∧ e.fragment.nullable = false) ∧
    ∀ (after subject : Array UInt8) (i : Nat) (flag : Bool), ∃ s,
      Relation.ReflTransGen (StepsInside (out ++ after) subject before.size out.size)
        ⟨before.size, i, flag⟩ s ∧
      (s.pc = out.size ∧ e.fragment.Describes i s ∨
        e.fragment.code.Rejects (out ++ after) subject failAt before.size s) := by
  have hc := e.fragment_selfContained
  have hstop := Rope.size_of_write hout
  refine ⟨fun w hw => ⟨(hc.width w hw).1, ?_⟩, fun after subject i flag => ?_⟩
  · rw [width_fragment] at hw
    rw [nullable_fragment, nullable_of_width hw]
  · obtain ⟨bytes, -, -, hplaced⟩ := Rope.placed_of_write hout
    have hcode : Placed (Encoded (out ++ after) failAt) before.size e.fragment.code.pieces :=
      hplaced Array.toList_append
    have hruns : e.fragment.code.Runs (subject.extract i subject.size) _ := e.fragment_runs
    obtain ⟨s, hpath, hexit⟩ := hruns.exists_exit hc.code (by omega) hcode flag
    rw [← hstop] at hpath hexit
    refine ⟨s, hpath, ?_⟩
    rcases hexit with ⟨j, hj, rfl⟩ | ⟨hfailed, rfl⟩ | hreject
    · left
      refine ⟨rfl, ⟨fun _ w hw => ?_, fun _ hn => ?_, fun _ => Nat.le_add_right i j, nofun⟩⟩
      · rw [width_fragment] at hw
        rw [eq_add_of_eval hw hj, Nat.zero_add]
      · rw [nullable_fragment] at hn
        exact Nat.lt_add_of_pos_right (lt_of_eval hn (Nat.zero_le _) hj)
    · left
      refine ⟨rfl, ⟨nofun, nofun, nofun, fun _ => ⟨rfl, ?_⟩⟩⟩
      rw [nullable_fragment]
      exact Bool.eq_false_iff.mpr fun hn => eval_ne_failed hn 0 hfailed
    · exact .inr hreject

/-- Any byte, any number of the letter a and the letter b. The failure of the loop
could be undone, that of the last byte could not. -/
def byteLoopByte : Expr := .cat .any (.cat (.quantified .zeroOrMore (.byte 97)) (.byte 98))

/-- An accept, the code of the expression behind it and a jump to place 60 where its
failure cannot be undone. -/
def byteLoopByteCode : Array UInt8 :=
  #[17, 4, 8, 12, 0, 0, 0, 33, 1, 97, 8, 11, 255, 255, 255, 248, 14, 1, 12, 0, 0, 0, 13, 1, 98, 8,
    12, 0, 0, 0, 29, 11, 0, 0, 0, 5, 13, 255, 255, 255, 255]

theorem fragment_exits_as_described_byteLoopByte :
    byteLoopByte.fragment.code.rope.write 60 #[17] = .ok byteLoopByteCode ∧
      byteLoopByteCode.size ≤ maxProgramLength ∧ ∃ s,
        Relation.ReflTransGen (StepsInside (byteLoopByteCode ++ #[17, 18]) #[97, 97] 1 41)
          ⟨1, 5, true⟩ s ∧
        (s.pc = 41 ∧ byteLoopByte.fragment.Describes 5 s ∨
          byteLoopByte.fragment.code.Rejects (byteLoopByteCode ++ #[17, 18]) #[97, 97] 60 1 s) := by
  have hwrite : byteLoopByte.fragment.code.rope.write 60 #[17] = .ok byteLoopByteCode := by cbv
  have hsize : byteLoopByteCode.size ≤ maxProgramLength := by decide
  exact ⟨hwrite, hsize,
    (fragment_exits_as_described byteLoopByte hwrite hsize).2 #[17, 18] #[97, 97] 5 true⟩

end Expr

end PatternEngine

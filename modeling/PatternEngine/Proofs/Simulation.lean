import PatternEngine.Proofs.Evaluation
import PatternEngine.Proofs.Execution

/-!
# Code that runs like an evaluator

Code runs like a function from positions to outcomes when the machine, started
on it at a position with either flag, leaves it as the outcome says: past its
end with the flag set where a match stops, past its end with the flag clear
where it started, or at the rejection. Each construction of fragments keeps
this, so the machine follows the evaluator through every expression.
-/

namespace PatternEngine
open Machine

section
variable {code subject : Array UInt8} {failAt pc i n : Nat} {flag holds : Bool}

/-! ### Single instructions -/

theorem displace_eq_some {base target : Nat} {w : Int32} (h : w.toInt = target - base) :
    displace base w = some target := by
  have hmoved : base + w.toInt = target := by omega
  simp only [displace, hmoved]
  rw [if_neg (by omega), Int.toNat_natCast]

theorem perform_test {t : Instruction} {f : UInt8 → Bool} (ht : byteTest? t = some f) (s : State) :
    s.perform subject t =
      .next { s with pc := s.pc + t.width, flag := subject[s.cursor]?.any f } := by
  cases t with
  | testSingle | testRange | testNegatedRange | testAny | testDigit | testLowerCase
  | testUpperCase =>
    cases ht
    rfl
  | _ => cases ht

theorem perform_jump (holds : Bool) (target : JumpTarget) (s : State) :
    s.perform subject (if holds then .jumpEq target else .jumpNeq target) =
      s.jump holds target := by
  cases holds <;> rfl

theorem jump_taken {w : Int32} {landing : Nat} (h : w.toInt = landing - (pc + jumpWidth : Nat)) :
    State.jump ⟨pc, i, flag⟩ flag (.offset w) = .next ⟨landing, i, flag⟩ := by
  simp only [State.jump, if_true, displace_eq_some h]

theorem jump_not_taken {target : JumpTarget} (h : flag ≠ holds) :
    State.jump ⟨pc, i, flag⟩ holds target = .next ⟨pc + jumpWidth, i, flag⟩ := by
  simp only [State.jump, if_neg h]

theorem perform_rewind {w : Int32} {moved : Nat} (s : State) (h : w.toInt = moved - s.cursor) :
    s.perform subject (.jumpPos w) =
      .next { s with pc := s.pc + jumpWidth, cursor := moved } := by
  rw [perform_jumpPos, displace_eq_some h, Option.elim_some]

/-! ### Single pieces -/

theorem path_plain {t : Instruction} {s : State}
    (h : (Code.plain t).StandsAt code failAt pc) (hi : i ≤ subject.size)
    (hs : State.perform subject ⟨pc, i, flag⟩ t = .next s) : Path code subject ⟨pc, i, flag⟩ s := by
  obtain ⟨hb, t', hres, hdec⟩ := Code.standsAt_piece.mp h
  cases hres
  exact .single hb hi ((step_of_decode hdec).trans hs)

theorem path_test {t : Instruction} {f : UInt8 → Bool} (ht : byteTest? t = some f)
    (h : (Code.plain t).StandsAt code failAt pc) (hi : i ≤ subject.size) :
    Path code subject ⟨pc, i, flag⟩ ⟨pc + t.width, i, subject[i]?.any f⟩ :=
  path_plain h hi (perform_test ht _)

theorem path_jump_to {distance : Int} {landing : Nat}
    (h : (Code.piece (.jumpIf flag distance)).StandsAt code failAt pc)
    (hland : distance = landing - (pc + jumpWidth : Nat)) (hi : i ≤ subject.size) :
    Path code subject ⟨pc, i, flag⟩ ⟨landing, i, flag⟩ := by
  obtain ⟨hb, t, hres, hdec⟩ := Code.standsAt_piece.mp h
  obtain ⟨w, hw, rfl⟩ := Piece.resolve_jumpIf hres
  apply Path.single hb hi
  rw [step_of_decode hdec, perform_jump, jump_taken (hw.trans hland)]

theorem path_jump (h : (Code.piece (.jumpIf flag n)).StandsAt code failAt pc)
    (hi : i ≤ subject.size) : Path code subject ⟨pc, i, flag⟩ ⟨pc + jumpWidth + n, i, flag⟩ := by
  apply path_jump_to h _ hi
  omega

theorem path_jump_back (h : (Code.piece (.jumpIf flag (-(n : Int)))).StandsAt code failAt pc)
    (hn : n ≤ pc + jumpWidth) (hi : i ≤ subject.size) :
    Path code subject ⟨pc, i, flag⟩ ⟨pc + jumpWidth - n, i, flag⟩ := by
  apply path_jump_to h _ hi
  omega

theorem path_no_jump {distance : Int}
    (h : (Code.piece (.jumpIf holds distance)).StandsAt code failAt pc) (hflag : flag ≠ holds)
    (hi : i ≤ subject.size) : Path code subject ⟨pc, i, flag⟩ ⟨pc + jumpWidth, i, flag⟩ := by
  obtain ⟨hb, t, hres, hdec⟩ := Code.standsAt_piece.mp h
  obtain ⟨w, -, rfl⟩ := Piece.resolve_jumpIf hres
  apply Path.single hb hi
  rw [step_of_decode hdec, perform_jump, jump_not_taken hflag]

theorem path_reject (h : (Code.piece .rejectUnlessFlag).StandsAt code failAt pc)
    (hi : i ≤ subject.size) : Path code subject ⟨pc, i, false⟩ ⟨failAt, i, false⟩ := by
  obtain ⟨hb, t, hres, hdec⟩ := Code.standsAt_piece.mp h
  obtain ⟨w, hw, rfl⟩ := Piece.resolve_rejectUnlessFlag hres
  apply Path.single hb hi
  rw [step_of_decode hdec]
  exact (perform_jump false _ _).trans (jump_taken hw)

theorem path_no_reject (h : (Code.piece .rejectUnlessFlag).StandsAt code failAt pc)
    (hi : i ≤ subject.size) : Path code subject ⟨pc, i, true⟩ ⟨pc + jumpWidth, i, true⟩ := by
  obtain ⟨hb, t, hres, hdec⟩ := Code.standsAt_piece.mp h
  obtain ⟨w, -, rfl⟩ := Piece.resolve_rejectUnlessFlag hres
  apply Path.single hb hi
  rw [step_of_decode hdec]
  exact (perform_jump false _ _).trans (jump_not_taken (by decide))

theorem path_rewind (h : (Code.piece (.rewind n)).StandsAt code failAt pc)
    (hi : i + n ≤ subject.size) :
    Path code subject ⟨pc, i + n, flag⟩ ⟨pc + jumpWidth, i, flag⟩ := by
  obtain ⟨hb, t, hres, hdec⟩ := Code.standsAt_piece.mp h
  obtain ⟨w, hw, rfl⟩ := Piece.resolve_rewind hres
  have hmoved : w.toInt = i - (i + n : Nat) := by omega
  apply Path.single hb hi
  rw [step_of_decode hdec, perform_rewind _ hmoved]

end

/-- How control goes on from a state of code that started at position `i` and
ends at `stop`. -/
def Outcome.Leaves (code subject : Array UInt8) (failAt stop i : Nat) (s : State) :
    Outcome → Prop
  | .matched j => j ≤ subject.size ∧ Path code subject s ⟨stop, j, true⟩
  | .failed => Path code subject s ⟨stop, i, false⟩
  | .aborted => ∃ j ≤ subject.size, Path code subject s ⟨failAt, j, false⟩

namespace Outcome.Leaves

variable {code subject : Array UInt8} {failAt middle stop i start : Nat} {s t : State}
  {o next : Outcome}

theorem of_path (hpath : Path code subject s t)
    (h : o.Leaves code subject failAt stop start t) :
    o.Leaves code subject failAt stop start s := by
  cases o with
  | matched j => exact ⟨h.1, hpath.trans h.2⟩
  | failed => exact hpath.trans h
  | aborted =>
    obtain ⟨j, hj, hreject⟩ := h
    exact ⟨j, hj, hpath.trans hreject⟩

theorem followed (h : o.Leaves code subject failAt middle i s)
    (hmatched : ∀ j ≤ subject.size, o = .matched j →
      next.Leaves code subject failAt stop start ⟨middle, j, true⟩)
    (hfailed : o = .failed → next.Leaves code subject failAt stop start ⟨middle, i, false⟩)
    (haborted : o = .aborted → next = .aborted) :
    next.Leaves code subject failAt stop start s := by
  cases o with
  | matched j => exact of_path h.2 (hmatched j h.1 rfl)
  | failed => exact of_path h (hfailed rfl)
  | aborted =>
    rw [haborted rfl]
    exact h

end Outcome.Leaves

def Code.Runs (c : Code) (subject : Array UInt8) (run : Nat → Outcome) : Prop :=
  ∀ ⦃code : Array UInt8⦄ ⦃failAt pc : Nat⦄, c.StandsAt code failAt pc →
    ∀ ⦃i : Nat⦄, i ≤ subject.size → ∀ flag,
      (run i).Leaves code subject failAt (pc + c.size) i ⟨pc, i, flag⟩

namespace Fragment

variable {subject : Array UInt8} {run other : Nat → Outcome} {f g : Fragment} {c : Code}

/-! ### Groups, loops and choices -/

theorem inGroup_runs {id : Nat} (h : f.code.Runs subject run) :
    (f.inGroup id).code.Runs subject run := by
  intro code failAt pc hstands i hi flag
  obtain ⟨hopen, hrest⟩ := Code.standsAt_append.mp hstands
  obtain ⟨hbody, hclose⟩ := Code.standsAt_append.mp hrest
  have hstop : pc + (f.inGroup id).code.size = pc + 2 + f.code.size + 2 := by
    simp only [Nat.add_assoc]
    rfl
  rw [hstop]
  refine .of_path (path_plain hopen hi rfl) ((h hbody hi flag).followed ?_ ?_ fun ho => ho)
  · intro j hj ho
    rw [ho]
    exact ⟨hj, path_plain hclose hj rfl⟩
  · intro ho
    rw [ho]
    exact path_plain hclose hi rfl

theorem zeroOrOne_runs (h : f.code.Runs subject run) :
    f.zeroOrOne.code.Runs subject fun i => (run i).orElse (.matched i) := by
  intro code failAt pc hstands i hi flag
  obtain ⟨hbody, hset⟩ := Code.standsAt_append.mp hstands
  apply (h hbody hi flag).followed
  · intro j hj ho
    simp only [ho, Outcome.orElse]
    exact ⟨hj, path_plain hset hj rfl⟩
  · intro ho
    simp only [ho, Outcome.orElse]
    exact ⟨hi, path_plain hset hi rfl⟩
  · intro ho
    simp only [ho, Outcome.orElse]

/-- Every run that matches comes back to the start of the loop further ahead. A
loop never fails, so it may count as started anywhere. -/
theorem loop_leaves (h : c.Runs subject run)
    (hahead : ∀ i j, i ≤ subject.size → run i = .matched j → i < j)
    {code : Array UInt8} {failAt pc : Nat} (hstands : (loop c).StandsAt code failAt pc)
    {i : Nat} (hi : i ≤ subject.size) {flag : Bool} {start : Nat} :
    (Outcome.greedy subject.size run i).Leaves code subject failAt (pc + (loop c).size) start
      ⟨pc, i, flag⟩ := by
  obtain ⟨hbody, hrest⟩ := Code.standsAt_append.mp hstands
  obtain ⟨hjump, hset⟩ := Code.standsAt_append.mp hrest
  induction i using Outcome.greedy.induct subject.size run generalizing flag with
  | case1 i ho =>
    refine (h hbody hi flag).followed (by simp [ho]) ?_ (by simp [ho])
    intro _
    rw [Outcome.greedy, ho]
    exact ⟨hi, (path_no_jump hjump (by decide) hi).trans (path_plain hset hi rfl)⟩
  | case2 i ho =>
    refine (h hbody hi flag).followed (by simp [ho]) (by simp [ho]) ?_
    intro _
    rw [Outcome.greedy, ho]
  | case3 i j ho hij ih =>
    refine (h hbody hi flag).followed ?_ (by simp [ho]) (by simp [ho])
    intro k hk ho'
    cases ho.symm.trans ho'
    rw [Outcome.greedy_of_matched ho hij.1 hij.2]
    have hback := path_jump_back hjump (by omega) hk
    rw [show pc + c.size + jumpWidth - (c.size + jumpWidth) = pc by omega] at hback
    exact .of_path hback (ih hk)
  | case4 i j ho hij =>
    refine (h hbody hi flag).followed ?_ (by simp [ho]) (by simp [ho])
    intro k hk ho'
    have hik := hahead i k hi ho'
    cases ho.symm.trans ho'
    exact absurd ⟨hik, hk⟩ hij

theorem zeroOrMore_runs (h : f.code.Runs subject run)
    (hahead : f.nullable = false → ∀ i j, i ≤ subject.size → run i = .matched j → i < j) :
    f.zeroOrMore.code.Runs subject fun i =>
      if f.nullable then (run i).orElse (.matched i) else Outcome.greedy subject.size run i := by
  unfold zeroOrMore
  cases hf : f.nullable with
  | true => exact zeroOrOne_runs h
  | false => exact fun _ _ _ hstands _ hi _ => loop_leaves h (hahead hf) hstands hi

theorem oneOrMore_runs (h : f.code.Runs subject run)
    (hahead : f.nullable = false → ∀ i j, i ≤ subject.size → run i = .matched j → i < j) :
    f.oneOrMore.code.Runs subject fun i =>
      if f.nullable then run i else (run i).andThen (Outcome.greedy subject.size run) := by
  unfold oneOrMore
  cases hf : f.nullable with
  | true => exact h
  | false =>
    simp only [Bool.false_eq_true, if_false]
    intro code failAt pc hstands i hi flag
    obtain ⟨hfirst, hrest⟩ := Code.standsAt_append.mp hstands
    obtain ⟨hexit, hagain⟩ := Code.standsAt_append.mp (Code.standsAt_block.mp hrest)
    have hstop : pc + (f.code ++ (Code.piece (.jumpIf false (loop f.code).size) ++
        loop f.code).block).size = pc + f.code.size + jumpWidth + (loop f.code).size := by
      simp only [Nat.add_assoc]
      rfl
    rw [hstop]
    apply (h hfirst hi flag).followed
    · intro j hj ho
      simp only [ho, Outcome.andThen]
      apply Outcome.Leaves.of_path (path_no_jump hexit (by decide) hj)
      exact loop_leaves h (hahead hf) hagain hj
    · intro ho
      simp only [ho, Outcome.andThen]
      exact path_jump hexit hi
    · intro ho
      simp only [ho, Outcome.andThen]

theorem either_runs (hf : f.code.Runs subject run) (hg : g.code.Runs subject other) :
    (f.either g).code.Runs subject fun i => (run i).orElse (other i) := by
  intro code failAt pc hstands i hi flag
  obtain ⟨hfirst, hrest⟩ := Code.standsAt_append.mp hstands
  obtain ⟨hskip, hsecond⟩ := Code.standsAt_append.mp hrest
  have hstop : pc + (f.either g).code.size = pc + f.code.size + jumpWidth + g.code.size := by
    simp only [Nat.add_assoc]
    rfl
  rw [hstop]
  apply (hf hfirst hi flag).followed
  · intro j hj ho
    simp only [ho, Outcome.orElse]
    exact ⟨hj, path_jump hskip hj⟩
  · intro ho
    simp only [ho, Outcome.orElse]
    exact .of_path (path_no_jump hskip (by decide) hi) (hg hsecond hi false)
  · intro ho
    simp only [ho, Outcome.orElse]

end Fragment

end PatternEngine

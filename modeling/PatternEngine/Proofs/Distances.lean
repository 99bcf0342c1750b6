import PatternEngine.Proofs.Acceptance
import PatternEngine.Proofs.Numbering

/-!
# Distances and numbers that fit

Code never steps back over more than stands in front of the step, and a jump
lands where code has been laid out. So a distance is no longer than what has
been laid out when it is taken, and below the largest program no distance is too
long for 32 bits. What a compilation can fail by is then the pattern, or room.
-/

namespace PatternEngine

/-! ### Steps back -/

theorem placed_ge (pc : Nat) (ps : List Piece) : Placed (fun pc' _ => pc ≤ pc') pc ps := by
  induction ps generalizing pc with
  | nil => trivial
  | cons p ps ih =>
    exact ⟨Nat.le_refl pc, (ih (pc + p.width)).mono fun _ _ _ => Nat.le_of_add_right_le⟩

/-- A piece of code that starts at a place steps back to there at most. -/
def Piece.BackedFrom (start pc : Nat) (p : Piece) : Prop :=
  ∀ count, p = .rewind count → start + count ≤ pc

namespace Code

/-- No step back leads out of the code to the front, wherever the code stands. -/
def Backed (c : Code) : Prop := ∀ start, Placed (Piece.BackedFrom start) start c.pieces

theorem FitsIn.backedFrom {c : Code} {n : Nat} (h : c.FitsIn n) (start : Nat) :
    Placed (Piece.BackedFrom start) (start + n) c.pieces := by
  refine (placed_ge (start + n) c.pieces).mono fun pc p hp hpc count hcount => ?_
  have hle : count ≤ n := (show (Piece.rewind count).Fits n from hcount ▸ h p hp).2
  omega

namespace Backed

variable {a b : Code}

theorem append (ha : a.Backed) (hb : b.Backed) : (a ++ b).Backed := by
  intro start
  rw [pieces_append, placed_append, sum_width_pieces]
  refine ⟨ha start, (hb (start + a.size)).mono fun pc p _ h count hcount => ?_⟩
  have := h count hcount
  omega

theorem piece {p : Piece} (h : ∀ count, p ≠ .rewind count) : (Code.piece p).Backed :=
  fun _ => ⟨fun count hcount => absurd hcount (h count), trivial⟩

theorem plain (i : Instruction) : (Code.plain i).Backed := by
  refine piece fun count hcount => ?_
  cases hcount

theorem skip (hb : b.Backed) (flag : Bool) (distance : Int) :
    (Code.piece (.jumpIf flag distance) ++ b).Backed := append (piece nofun) hb

theorem loop (hb : b.Backed) : (Fragment.loop b).Backed :=
  hb.append ((plain _).skip true _)

theorem chain (settled : Bool) (tests : List Instruction) : (Code.chain settled tests).Backed := by
  induction tests with
  | nil => exact fun _ => trivial
  | cons t ts ih =>
    rw [chain_cons]
    split
    · exact plain t
    · exact (plain t).append (ih.skip settled _)

theorem tests (cls : CharClass) : cls.tests.Backed := by
  unfold CharClass.tests
  split
  · exact chain _ _
  · exact chain _ _

end Backed
end Code

namespace Fragment

theorem quantify_backed (q : Quantifier) {f : Fragment} (h : f.code.Backed) :
    (f.quantify q).code.Backed := by
  have hone : f.zeroOrOne.code.Backed := h.append (.plain _)
  cases q with
  | zeroOrOne => exact hone
  | zeroOrMore =>
    simp only [quantify, zeroOrMore]
    split
    · exact hone
    · exact h.loop
  | oneOrMore =>
    simp only [quantify, oneOrMore]
    split
    · exact h
    · exact h.append (h.loop.skip false _)

end Fragment

namespace Branch

variable {fs : List Fragment} {undoSize : Nat}

theorem guarded_backed {ps : List PlacedTerm} (h : ∀ t ∈ ps, t.fragment.code.Backed) :
    (guarded undoSize ps.reverse).Backed := by
  induction ps with
  | nil => exact fun _ => trivial
  | cons t ps ih =>
    have hexit : ∀ ahead, (Code.piece (exit undoSize ahead t)).Backed := by
      intro ahead
      refine .piece fun count hcount => ?_
      unfold exit at hcount
      split at hcount <;> cases hcount
    rw [guarded_cons]
    exact (h t (List.mem_cons_self ..)).append
      ((hexit _).append (ih fun u hu => h u (List.mem_cons_of_mem t hu)))

/-- The undoing code steps back over the terms in front of it. -/
theorem close_backed {b : Branch} (hfs : ∀ f ∈ fs, f.SelfContained ∧ f.code.Backed)
    (hb : b = fs.foldl push {}) (htwo : 2 ≤ b.terms.length) : b.close.code.Backed := by
  have hterms : b.terms = (place 0 (some 0) fs).reverse := by
    rw [hb, terms_foldl_push]
    exact List.append_nil _
  have hsizes : (fs.map (·.code.size)).sum ≤ (guarded b.undo.size b.terms).size := by
    rw [hterms]
    exact sum_sizes_le 0 (some 0)
  have hguarded : (guarded b.undo.size b.terms).Backed := by
    rw [hterms]
    exact guarded_backed fun t ht => (hfs _ (mem_of_mem_place ht)).2
  have hundo : b.undo.FitsIn (guarded b.undo.size b.terms).size :=
    (undo_fitsIn (fun f hf => (hfs f hf).1) hterms).mono hsizes
  rw [close_of_two_le htwo]
  intro start
  rw [Code.pieces_append, placed_append, Code.sum_width_pieces]
  exact ⟨hguarded start, hundo.backedFrom start⟩

end Branch

namespace Expr

theorem fragment_backed (e : Expr) : e.fragment.code.Backed := by
  induction e using induction_on_terms with
  | any | byte b => exact .append (.plain _) (.plain _)
  | oneOf c => exact .append (.tests c) (.plain _)
  | group id body ih => exact .append (.plain _) (ih.append (.plain _))
  | quantified q body ih => exact Fragment.quantify_backed q ih
  | cat first rest ih =>
    rw [fragment_eq_close]
    refine Branch.close_backed ?_ rfl (two_le_terms_branchOf (terms_ne_nil rest))
    intro f hf
    obtain ⟨t, ht, rfl⟩ := List.mem_map.mp hf
    exact ⟨t.fragment_selfContained, ih t ht⟩
  | alt first rest ih₁ ih₂ =>
    rw [fragment_alt]
    exact ih₁.append (ih₂.skip true _)

theorem openCode_backed (e : Expr) : e.openCode.Backed :=
  openCode_induction (motive := Code.Backed) fragment_backed
    (fun _ _ hc hd => hc.append (.append (.piece nofun) hd))
    (fun _ _ hc hd => hc.append (hd.skip true _)) e

end Expr

/-! ### Words -/

/-- The number that an instruction holds in a signed word of 32 bits. -/
def Instruction.word? : Instruction → Option Int
  | .jumpEq (.offset w) | .jumpNeq (.offset w) | .jumpPos w => some w.toInt
  | _ => none

namespace Piece

/-- The number that the instruction of a piece has to hold. -/
def word? (failAt pc : Nat) : Piece → Option Int
  | .plain i => i.word?
  | .jumpIf _ distance => some distance
  | .rejectUnlessFlag => some (failAt - (pc + jumpWidth : Nat))
  | .rewind count => some (-count)

/-- A piece gets an instruction that holds its number unchanged. -/
def IsExact (failAt pc : Nat) (p : Piece) : Prop :=
  ∃ i, p.resolve failAt pc = .ok i ∧ i.word? = p.word? failAt pc

theorem word_of_resolve {p : Piece} {failAt pc : Nat} {i : Instruction}
    (h : p.resolve failAt pc = .ok i) : i.word? = p.word? failAt pc := by
  cases p with
  | plain j => cases h; rfl
  | jumpIf flag distance =>
    obtain ⟨w, rfl, rfl⟩ := resolve_jumpIf h
    cases flag <;> rfl
  | rejectUnlessFlag =>
    obtain ⟨w, hw, rfl⟩ := resolve_rejectUnlessFlag h
    exact congrArg some hw
  | rewind count =>
    obtain ⟨w, hw, rfl⟩ := resolve_rewind h
    exact congrArg some hw

/-- A jump that lands in a program and a step back that stays in it are exact. -/
theorem isExact {p : Piece} {target : Nat → Prop} {failAt start pc : Nat}
    (hlands : p.LandsOn target pc) (hbacked : p.BackedFrom start pc)
    (hwithin : p.Within maxProgramLength failAt pc) : p.IsExact failAt pc := by
  have hrewind : ∀ count, p = .rewind count → count ≤ maxProgramLength := by
    rintro count rfl
    have hcount := hbacked count rfl
    have hpc : pc ≤ maxProgramLength := hwithin
    omega
  obtain ⟨i, hi⟩ := exists_resolve hlands hwithin hrewind
  exact ⟨i, hi, word_of_resolve hi⟩

end Piece

/-- Each piece is exact as soon as the code around it is within the largest
program. -/
def Code.ExactAt (c : Code) (failAt start : Nat) : Prop :=
  Placed (fun pc p => p.Within maxProgramLength failAt pc → p.IsExact failAt pc) start c.pieces

theorem Code.exactAt {c : Code} (hclosed : c.Closed) (hbacked : c.Backed) (failAt start : Nat) :
    c.ExactAt failAt start := by
  have hcuts : c.CutsAt (fun _ => True) start :=
    ⟨(placed_ge start c.pieces).mono fun _ _ _ _ => trivial, trivial⟩
  exact ((hclosed hcuts).and (hbacked start)).mono fun pc p _ h => Piece.isExact h.1 h.2

namespace Tree

theorem layout_exactAt (tree : Tree) : tree.layout.code.ExactAt tree.layout.failAt 0 := by
  cases tree with
  | none => exact Code.exactAt (Code.closed_plain _) (.plain _) ..
  | some e =>
    have hclosed : (Code.piece .rejectUnlessFlag).Closed := Code.closed_piece fun _ _ => trivial
    have hbacked : (Code.piece .rejectUnlessFlag).Backed := .piece nofun
    refine Code.exactAt ?_ ?_ ..
    · exact (e.openCode_selfContained.closed.append (hclosed.append (Code.closed_plain _))).append
        (Code.closed_plain _)
    · exact (e.openCode_backed.append (hbacked.append (.plain _))).append (.plain _)

/-- All pieces of a program that is not too large are exact. -/
theorem isExact_of_programSize_le (tree : Tree) (hsize : tree.programSize ≤ maxProgramLength) :
    Placed (Piece.IsExact tree.layout.failAt) 0 tree.layout.code.pieces := by
  refine (tree.layout_exactAt.and tree.layout_sound.within).mono ?_
  rintro pc p - ⟨hexact, -, hwithin⟩
  exact hexact (hwithin.mono hsize)

end Tree

/-- Tokens of any kind and in any order fail to become a program for two reasons
only: they are malformed, or bytes run out. The other causes of failure cannot
arise. Wherever the code of an expression is laid out, and in every program, a
distance is exact when it is taken within the largest program, and a program
that is no larger has exact distances only. And groups are numbered by single
bytes, where the parse ends early as well. -/
theorem Program.ofTokens_errors_and_numbers (tokens : List Token) (maxLength : Nat) :
    (∀ e, ofTokens tokens maxLength = .error e →
      (∃ cause, e = .malformed cause) ∨
        ∃ requested, e = .resourceLimit .bytecode requested (min maxLength maxProgramLength)) ∧
    (∀ (e : Expr) (failAt start : Nat), e.fragment.code.ExactAt failAt start) ∧
    (∀ tree : Tree, tree.layout.code.ExactAt tree.layout.failAt 0 ∧
      (tree.programSize ≤ maxProgramLength →
        Placed (Piece.IsExact tree.layout.failAt) 0 tree.layout.code.pieces)) ∧
    (∀ parsed, parse tokens = .ok parsed → NumbersFit parsed.expr.ids parsed.groups) ∧
    (∀ halt, parse tokens = .error halt → NumbersFit halt.state.ids halt.state.groups) ∧
    ∀ program, ofTokens tokens maxLength = .ok program →
      (UInt8.ofNat program.groups).toNat = program.groups := by
  refine ⟨fun e he => ?_, fun e failAt start => ?_,
    fun tree => ⟨tree.layout_exactAt, tree.isExact_of_programSize_le⟩,
    fun parsed => numbersFit_of_parse, fun halt => numbersFit_of_parse_error,
    fun program hprogram => ?_⟩
  · rcases error_of_ofTokens he with ⟨halt, -, -, rfl⟩ | ⟨requested, rfl⟩
    · exact .inl ⟨_, rfl⟩
    · exact .inr ⟨requested, rfl⟩
  · exact Code.exactAt e.fragment_selfContained.code.closed e.fragment_backed failAt start
  · obtain ⟨tree, htree, -⟩ := exists_layout hprogram
    cases tree with
    | none =>
      rw [htree.2]
      rfl
    | some e => exact (numbersFit_of_parse htree).toNat_groups

/-- Two bytes are room for the start of the group alone. -/
def unclosedDot : List Token := [⟨"(", 0, .groupOpen⟩, ⟨".", 1, .anyByte⟩]

theorem Program.ofTokens_errors_and_numbers_unclosedDot :
    (∃ e requested, ofTokens unclosedDot 2 = .error e ∧
      e = .resourceLimit .bytecode requested 2) ∧
    ∀ halt, parse unclosedDot = .error halt → (UInt8.ofNat halt.state.groups).toNat = 1 := by
  have herror : ofTokens unclosedDot 2 = .error (outOfRoom 2 3) := by cbv
  obtain ⟨herrors, -, -, -, hhalt, -⟩ := ofTokens_errors_and_numbers unclosedDot 2
  refine ⟨?_, fun halt hparse => ?_⟩
  · rcases herrors _ herror with ⟨cause, hcause⟩ | ⟨requested, hroom⟩
    · cases hcause
    · exact ⟨_, requested, herror, hroom⟩
  · rw [(hhalt halt hparse).toNat_groups]
    cases hparse
    rfl

end PatternEngine

import PatternEngine.Proofs.Fitting
import PatternEngine.Proofs.Matching

/-!
# The form of emitted programs

An emitted program is read back in full. It has a body, an accept and a fail in
this order, its jumps land on its lines, and its body neither ends a run nor
moves the cursor except over a tested byte or back. The lines come from the
pieces of the layout; that the jumps land was checked when it was assembled.
-/

namespace PatternEngine

/-- Instructions that may stand before the last accept. The only moves of the
cursor that no test guards go back. -/
def Instruction.IsBody : Instruction → Prop
  | .testSingle _ | .testRange _ _ | .testNegatedRange _ _ | .testAny | .testDigit
  | .testLowerCase | .testUpperCase | .incPosEq | .jumpEq _ | .jumpNeq _ | .setFlag _
  | .groupStart _ | .groupEnd _ => True
  | .jumpPos distance => distance.toInt < 0
  | .incPos | .decPos | .accept | .fail => False

/-- A complete listing of a body, an accept and a fail. Every jump has a
distance and lands on a line, at the latest on that of the fail. -/
structure Listing.WellFormed (listing : Listing) (failAt : Nat) : Prop where
  complete : listing.isComplete = true
  ends : ∃ body acceptAt, failAt = acceptAt + 1 ∧
    listing.lines.toList = body ++ [⟨acceptAt, .accept, 1⟩, ⟨failAt, .fail, 1⟩] ∧
    ∀ line ∈ body, line.instruction.IsBody
  lands : ∀ line ∈ listing.lines, ∀ target, line.instruction.jumpTarget? = some target →
    ∃ distance, target = .offset distance ∧ ∃ landing ∈ listing.lines,
      (landing.offset : Int) = (line.offset + line.width : Nat) + distance.toInt ∧
      landing.offset ≤ failAt

theorem Piece.isBody_of_resolve {p : Piece} {bound failAt pc : Nat} {i : Instruction}
    (h : p.Fits bound) (hi : p.resolve failAt pc = .ok i) : i.IsBody := by
  cases p with
  | plain j =>
    cases hi
    have hinner : i.IsInner := h
    cases i <;> trivial
  | jumpIf flag distance =>
    obtain ⟨w, -, rfl⟩ := resolve_jumpIf hi
    cases flag <;> trivial
  | rejectUnlessFlag =>
    obtain ⟨w, -, rfl⟩ := resolve_rejectUnlessFlag hi
    trivial
  | rewind count =>
    obtain ⟨w, hw, rfl⟩ := resolve_rewind hi
    have hpos := h.1
    have hback : w.toInt < 0 := by omega
    exact hback

namespace Layout

variable {limit : Nat} {code : Array UInt8}

theorem disassemble_empty (h : empty.assemble limit = .ok code) :
    disassemble code = ⟨#[⟨0, .accept, 1⟩], none⟩ := by
  obtain ⟨-, i, hi, hdecode⟩ := Code.standsAt_piece.mp (standsAt_of_assemble h)
  cases hi
  have hsize : code.size ≤ 1 := (Rope.size_of_write (write_of_assemble h).1).le
  exact disassemble_of_reads (.cons hdecode .nil) hsize

/-- The pieces before the accept are read back as a body. -/
theorem exists_body_of_write {e : Expr}
    (h : (ofExpr e).code.rope.write (ofExpr e).failAt #[] = .ok code) :
    ∃ body, Reads code 0 (body ++ [⟨e.openCode.size + jumpWidth, .accept, 1⟩,
        ⟨(ofExpr e).failAt, .fail, 1⟩]) code.size ∧
      ∀ line ∈ body, line.instruction.IsBody := by
  have hstands : Stands code (ofExpr e).failAt 0 (ofExpr e).code.pieces := standsAt_of_write h
  let before : Code := e.openCode ++ .piece .rejectUnlessFlag
  have hpieces : (ofExpr e).code.pieces = before.pieces ++ [.plain .accept, .plain .fail] := by
    rw [pieces_ofExpr, Code.pieces_append, List.append_assoc]
    rfl
  have hfits : before.FitsIn e.openCode.size :=
    Code.fitsIn_append.mpr ⟨e.openCode_selfContained.fits, Code.fitsIn_piece.mpr trivial⟩
  rw [hpieces, Stands, placed_append, before.sum_width_pieces, Nat.zero_add] at hstands
  obtain ⟨hbefore, ⟨-, _, hi, haccept⟩, ⟨-, _, hi', hfail⟩, -⟩ := hstands
  cases hi
  cases hi'
  obtain ⟨body, hbody, hall⟩ :=
    Stands.exists_reads hbefore (Placed.mono hbefore fun _ p hp _ => hfits p hp)
  rw [before.sum_width_pieces, Nat.zero_add] at hbody
  refine ⟨body, ?_, fun line hline => ?_⟩
  · have hsize : code.size = before.size + Instruction.accept.width + Instruction.fail.width := by
      rw [Rope.size_of_write h]
      exact Nat.zero_add _
    rw [hsize]
    exact hbody.append (.cons haccept (.cons hfail .nil))
  · obtain ⟨p, -, hp, hi⟩ := hall line hline
    exact Piece.isBody_of_resolve hp hi

theorem wellFormed_ofExpr {e : Expr} (h : (ofExpr e).assemble limit = .ok code) :
    (disassemble code).WellFormed (ofExpr e).failAt := by
  obtain ⟨hwrite, hverify⟩ := write_of_assemble h
  obtain ⟨body, hlines, hbody⟩ := exists_body_of_write hwrite
  have hsize : code.size = (ofExpr e).failAt + 1 := by
    rw [Rope.size_of_write hwrite]
    exact Nat.zero_add _
  obtain ⟨hcomplete, hlandings⟩ := verify_eq_ok_iff.mp hverify
  refine ⟨hcomplete, ⟨body, e.openCode.size + jumpWidth, rfl, ?_, hbody⟩, ?_⟩
  · rw [disassemble_of_reads hlines le_rfl]
  · intro line hline target htarget
    have hdecode : ∀ line ∈ (disassemble code).lines,
        Instruction.decode code line.offset = .ok line.instruction := by
      intro line hline
      rw [disassemble_of_reads hlines le_rfl] at hline
      exact (hlines.decode (List.mem_toArray.mp hline)).1
    obtain ⟨distance, rfl⟩ := Instruction.exists_distance_of_decode (hdecode line hline) htarget
    obtain ⟨landing, hmem, heq⟩ := hlandings line hline _ (Line.landing_of_target htarget)
    have hlt := Instruction.lt_size_of_decode (hdecode landing hmem)
    exact ⟨distance, rfl, landing, hmem, heq.symm, by omega⟩

end Layout

/-- Emitted code is a lone accept for no tokens, and for all others a body, an
accept and a fail whose jumps stay on the lines of the program. -/
theorem emit_wellFormed {tokens : List Token} {code : Array UInt8}
    (h : emit tokens = .ok code) :
    (tokens = [] → disassemble code = ⟨#[⟨0, .accept, 1⟩], none⟩) ∧
      (tokens ≠ [] → ∃ failAt, (disassemble code).WellFormed failAt) := by
  cases hprogram : Program.ofTokens tokens defaultProgramLength with
  | error e => simp [emit, hprogram, Except.map] at h
  | ok program =>
    simp only [emit, hprogram, Except.map, Except.ok.injEq] at h
    subst h
    obtain ⟨tree, htree, hcode⟩ := Program.exists_layout hprogram
    cases tree with
    | none =>
      exact ⟨fun _ => Layout.disassemble_empty hcode, fun hne => absurd htree.1 hne⟩
    | some e =>
      refine ⟨?_, fun _ => ⟨_, Layout.wellFormed_ofExpr hcode⟩⟩
      rintro rfl
      cases htree

def pairLoopTokens : List Token :=
  [⟨"(", 0, .groupOpen⟩, ⟨"a", 1, .literal⟩, .concatenation 2, ⟨"b", 2, .literal⟩,
    ⟨")", 3, .groupClose⟩, ⟨"*", 4, .operator (.quantify .zeroOrMore)⟩, .concatenation 5,
    ⟨"c", 5, .literal⟩]

theorem emit_pairLoopTokens : emit pairLoopTokens = .ok pairLoop.bytecode := by cbv

theorem emit_wellFormed_pairLoop : disassemble #[17] = ⟨#[⟨0, .accept, 1⟩], none⟩ ∧
    ∃ failAt, (disassemble pairLoop.bytecode).WellFormed failAt := by
  have hempty : emit [] = .ok #[17] := by cbv
  exact ⟨(emit_wellFormed hempty).1 rfl,
    (emit_wellFormed emit_pairLoopTokens).2 (List.cons_ne_nil _ _)⟩

end PatternEngine

import PatternEngine.Log
import PatternEngine.Proofs.Denotation
import PatternEngine.Proofs.Programs
import PatternEngine.Proofs.Reading

/-!
# What compiled patterns match

A pattern that compiles has one tree in the grammar, and its program runs on
every subject as the evaluator says of that tree. So a match is decided by the
evaluator, consumes a word of the regular language of the pattern, and comes
from a run that ends and never leaves the instructions of the program or the
bytes of the subject.
-/

namespace PatternEngine
open Machine

theorem Spells.ne_nil {shape : Shape} {n m : Nat} {cs : List Char} {e : Expr}
    (h : Spells shape n cs e m) : cs ≠ [] := by
  induction h with
  | plain _ ih | last _ ih | only _ ih => exact ih
  | cat _ _ ih _ => exact List.append_ne_nil_of_left_ne_nil ih _
  | byte | any | oneOf | group | quantified | alt => simp

namespace Tree

def eval (subject : Array UInt8) : Tree → Outcome
  | none => .matched 0
  | some e => e.eval subject 0

/-- The regular language of a pattern. The empty pattern denotes the empty word. -/
def language : Tree → Language UInt8
  | none => 1
  | some e => e.language

variable {tree other : Tree} {source : String} {n m : Nat}

theorem Of.unique (h : tree.Of source n) (hn : n ≤ maxGroups) (hother : other.Of source m) :
    other = tree := by
  cases tree with
  | none =>
    cases other with
    | none => rfl
    | some f => exact absurd h.1 (Spells.ne_nil hother)
  | some e =>
    cases other with
    | none => exact absurd hother.1 (Spells.ne_nil h)
    | some f => rw [(Spells.unique h hn hother).1]

theorem exists_word_of_eval {subject : Array UInt8} {j : Nat}
    (h : tree.eval subject = .matched j) : ∃ w ∈ tree.language, w <+: subject.toList := by
  cases tree with
  | none => exact ⟨[], rfl, List.nil_prefix⟩
  | some e => exact (Expr.spans_of_eval h).exists_word

def OfTokens (tokens : List Token) (groups : Nat) : Tree → Prop
  | none => tokens = [] ∧ groups = 0
  | some e => parse tokens = .ok ⟨e, groups⟩

theorem OfTokens.of_lex {tokens : List Token} (h : tree.OfTokens tokens n)
    (hlex : lex source = .ok tokens) : tree.Of source n ∧ n ≤ maxGroups := by
  obtain ⟨ts, hts, rfl⟩ := lex_eq_ok.mp hlex
  cases tree with
  | none =>
    obtain ⟨hnil, rfl⟩ := h
    refine ⟨⟨?_, rfl⟩, Nat.zero_le _⟩
    cases ts with
    | nil => exact hts.eq_nil
    | cons t ts => exact absurd hnil (join_ne_nil false t ts)
  | some e => exact spells_of_parse hts h

end Tree

/-! ### Programs -/

def Tree.layout : Tree → Layout
  | none => .empty
  | some e => .ofExpr e

theorem Tree.OfTokens.program_eq {tree : Tree} {tokens : List Token} {groups : Nat}
    (h : tree.OfTokens tokens groups) (maxLength : Nat) : Program.ofTokens tokens maxLength =
      (tree.layout.assemble (min maxLength maxProgramLength)).map (⟨·, groups⟩) := by
  cases tree with
  | none =>
    obtain ⟨rfl, rfl⟩ := h
    cases hcode : Layout.empty.assemble (min maxLength maxProgramLength) <;>
      simp only [Program.ofTokens, Tree.layout, hcode] <;> rfl
  | some e =>
    have h : parse tokens = .ok ⟨e, groups⟩ := h
    cases tokens with
    | nil => cases h
    | cons t ts =>
      cases hcode : (Layout.ofExpr e).assemble (min maxLength maxProgramLength) <;>
        simp only [Program.ofTokens, h, Tree.layout, hcode] <;> rfl

theorem Tree.ofTokens_or_halt (tokens : List Token) :
    (∃ (tree : Tree) (groups : Nat), tree.OfTokens tokens groups) ∨
      ∃ halt, tokens ≠ [] ∧ parse tokens = .error halt := by
  cases tokens with
  | nil => exact .inl ⟨none, 0, rfl, rfl⟩
  | cons t ts =>
    cases hparse : parse (t :: ts) with
    | error halt => exact .inr ⟨halt, List.cons_ne_nil t ts, rfl⟩
    | ok parsed => exact .inl ⟨some parsed.expr, parsed.groups, hparse⟩

theorem Program.ofTokens_of_halt {tokens : List Token} {halt : Halt} (hne : tokens ≠ [])
    (h : parse tokens = .error halt) (maxLength : Nat) :
    Program.ofTokens tokens maxLength = .error (halt.error (min maxLength maxProgramLength)) := by
  obtain ⟨t, ts, rfl⟩ := List.exists_cons_of_ne_nil hne
  simp only [Program.ofTokens, h]

theorem Program.exists_layout {tokens : List Token} {maxLength : Nat} {program : Program}
    (h : Program.ofTokens tokens maxLength = .ok program) :
    ∃ tree : Tree, tree.OfTokens tokens program.groups ∧
      tree.layout.assemble (min maxLength maxProgramLength) = .ok program.bytecode := by
  rcases Tree.ofTokens_or_halt tokens with ⟨tree, groups, htree⟩ | ⟨halt, hne, hparse⟩
  · rw [htree.program_eq maxLength] at h
    cases hcode : tree.layout.assemble (min maxLength maxProgramLength) with
    | error e => simp [hcode, Except.map] at h
    | ok code =>
      simp only [hcode, Except.map, Except.ok.injEq] at h
      subst h
      exact ⟨tree, htree, hcode⟩
  · rw [Program.ofTokens_of_halt hne hparse] at h
    cases h

theorem Tree.layout_ends {tree : Tree} {limit : Nat} {code : Array UInt8}
    (h : tree.layout.assemble limit = .ok code) (subject : Array UInt8) :
    ∃ t, Ends code subject {} t (tree.eval subject).verdict := by
  cases tree with
  | none => exact Layout.empty_ends h subject
  | some e => exact Layout.ofExpr_ends h subject

/-- A pattern that compiles has a tree, and its program is the layout of it. -/
theorem exists_layout_of_compile {options : CompileOptions} {source : String} {p : Pattern}
    (h : compile options source = .ok p) :
    ∃ tree : Tree, (tree.Of source p.groups ∧ p.groups ≤ maxGroups) ∧
      tree.layout.assemble (min options.maxProgramLength maxProgramLength) = .ok p.bytecode := by
  simp only [compile] at h
  split at h
  · cases h
  · split at h
    · cases h
    · rename_i tokens hlex
      split at h
      · cases h
      · rename_i program hprogram
        cases h
        obtain ⟨tree, htree, hcode⟩ := Program.exists_layout hprogram
        exact ⟨tree, htree.of_lex hlex, hcode⟩

/-- The program of a pattern ends on every subject as the evaluator says of its
tree. -/
theorem compile_ends {options : CompileOptions} {source : String} {p : Pattern}
    (h : compile options source = .ok p) :
    ∃ tree : Tree, (tree.Of source p.groups ∧ p.groups ≤ maxGroups) ∧
      ∀ subject, ∃ t, Ends p.bytecode subject {} t (tree.eval subject).verdict := by
  obtain ⟨tree, htree, hcode⟩ := exists_layout_of_compile h
  exact ⟨tree, htree, Tree.layout_ends hcode⟩

theorem Machine.Ends.judge_eq {code : Array UInt8} {subject : String} {t : State} {v : Verdict}
    (h : Ends code subject.toUTF8.data {} t v) : judge code subject = v := h.run_stepBudget

theorem Outcome.matched_verdict {o : Outcome} :
    o.verdict.matched = true ↔ ∃ j, o = .matched j := by
  cases o <;> simp [verdict, Verdict.matched]

theorem ends_of_tree {options : CompileOptions} {source : String} {p : Pattern} {tree : Tree}
    {groups : Nat} (h : compile options source = .ok p) (htree : tree.Of source groups)
    (subject : Array UInt8) : ∃ t, Ends p.bytecode subject {} t (tree.eval subject).verdict := by
  obtain ⟨compiled, ⟨hcompiled, hle⟩, hends⟩ := compile_ends h
  rw [hcompiled.unique hle htree]
  exact hends subject

theorem isMatch_eq {options : CompileOptions} {source : String} {p : Pattern} {tree : Tree}
    {groups : Nat} (h : compile options source = .ok p) (htree : tree.Of source groups)
    (subject : String) : p.isMatch subject = (tree.eval subject.toUTF8.data).verdict.matched := by
  obtain ⟨t, ht⟩ := ends_of_tree h htree subject.toUTF8.data
  rw [Pattern.isMatch, execute, ht.judge_eq]

/-! ### What holds of every pattern that compiles -/

def pairLoop : Pattern where
  source := "(ab)*c"
  bytecode := #[15, 1, 1, 97, 8, 12, 0, 0, 0, 18, 1, 98, 8, 12, 0, 0, 0, 5, 11, 0, 0, 0, 5, 13, 255,
    255, 255, 255, 16, 1, 11, 255, 255, 255, 221, 14, 1, 12, 0, 0, 0, 9, 1, 99, 8, 12, 0, 0, 0, 1,
    17, 18]
  groups := 1

def pairLoopTree : Tree :=
  some (.cat (.quantified .zeroOrMore (.group 1 (.cat (.byte 97) (.byte 98)))) (.byte 99))

theorem compile_pairLoop : compile {} "(ab)*c" = .ok pairLoop := by cbv

theorem pairLoopTree_of : pairLoopTree.Of "(ab)*c" 1 := by
  have ha : Spells .primary 1 ['a'] (.byte 97) 1 := .byte rfl
  have hb : Spells .primary 1 ['b'] (.byte 98) 1 := .byte rfl
  have hc : Spells .primary 1 ['c'] (.byte 99) 1 := .byte rfl
  have hpair : Spells .primary 0 _ _ 1 := .group (.only (.cat (.plain ha) (.last (.plain hb))))
  exact Spells.only (.cat (.quantified .zeroOrMore hpair) (.last (.plain hc)))

section
variable {options : CompileOptions} {source : String} {p : Pattern}

/-- A pattern that compiles has a tree, and it matches a subject exactly when
the evaluator matches on the tree from the start of the subject. -/
theorem isMatch_iff_eval (h : compile options source = .ok p) :
    (∃ tree : Tree, tree.Of source p.groups) ∧
      ∀ (tree : Tree) (groups : Nat), tree.Of source groups → ∀ subject : String,
        p.isMatch subject = true ↔ ∃ j, tree.eval subject.toUTF8.data = .matched j := by
  refine ⟨?_, ?_⟩
  · obtain ⟨tree, ⟨htree, -⟩, -⟩ := compile_ends h
    exact ⟨tree, htree⟩
  · intro tree groups htree subject
    rw [isMatch_eq h htree subject]
    exact Outcome.matched_verdict

theorem isMatch_iff_eval_pairLoop : pairLoop.isMatch "abac" = true ↔
    ∃ j, pairLoopTree.eval "abac".toUTF8.data = .matched j :=
  (isMatch_iff_eval compile_pairLoop).2 pairLoopTree 1 pairLoopTree_of "abac"

/-- No program that is emitted runs on and on: neither that of a list of tokens
nor that of a pattern, whatever the limits are. -/
theorem emitted_code_halts (subject : Array UInt8) :
    (∀ tokens code, emit tokens = .ok code → Halts code subject) ∧
      (∀ tokens maxLength program, Program.ofTokens tokens maxLength = .ok program →
        Halts program.bytecode subject) ∧
      ∀ options source p, compile options source = .ok p → Halts p.bytecode subject := by
  have hprogram : ∀ tokens maxLength program, Program.ofTokens tokens maxLength = .ok program →
      Halts program.bytecode subject := by
    intro tokens maxLength program h
    obtain ⟨tree, -, hcode⟩ := Program.exists_layout h
    obtain ⟨t, ht⟩ := Tree.layout_ends hcode subject
    exact ht.halts
  refine ⟨?_, hprogram, ?_⟩
  · intro tokens code h
    cases hp : Program.ofTokens tokens defaultProgramLength with
    | error e => simp [emit, hp, Except.map] at h
    | ok program =>
      simp only [emit, hp, Except.map, Except.ok.injEq] at h
      rw [← h]
      exact hprogram _ _ _ hp
  · intro options source p h
    obtain ⟨tree, -, hends⟩ := compile_ends h
    obtain ⟨t, ht⟩ := hends subject
    exact ht.halts

theorem emitted_code_halts_pairLoop : Halts pairLoop.bytecode "abab".toUTF8.data :=
  (emitted_code_halts "abab".toUTF8.data).2.2 {} "(ab)*c" pairLoop compile_pairLoop

/-- A match is never made up: some first part of the subject is a word of the
regular language of the pattern. -/
theorem exists_word_of_isMatch (h : compile options source = .ok p) :
    (∃ tree : Tree, tree.Of source p.groups) ∧
      ∀ (tree : Tree) (groups : Nat), tree.Of source groups → ∀ subject : String,
        p.isMatch subject = true → ∃ w ∈ tree.language, w <+: subject.toUTF8.data.toList := by
  refine ⟨?_, ?_⟩
  · obtain ⟨tree, ⟨htree, -⟩, -⟩ := compile_ends h
    exact ⟨tree, htree⟩
  · intro tree groups htree subject hmatch
    rw [isMatch_eq h htree subject, Outcome.matched_verdict] at hmatch
    obtain ⟨j, hj⟩ := hmatch
    exact Tree.exists_word_of_eval hj

theorem exists_word_of_isMatch_pairLoop :
    ∃ w ∈ pairLoopTree.language, w <+: "ababcd".toUTF8.data.toList :=
  (exists_word_of_isMatch compile_pairLoop).2 pairLoopTree 1 pairLoopTree_of "ababcd"
    (by decide +kernel)

/-- Every state of a run stands at an instruction of the listing with the cursor
inside the subject or at its end. It goes on to a next state or stops at an
accept or a fail, so no run has anything to report. -/
theorem reached_consistent (h : compile options source = .ok p) (subject : String) :
    (∀ s, Reached p.bytecode subject.toUTF8.data s → s.cursor ≤ subject.toUTF8.data.size ∧
      ∃ i, ⟨s.pc, i, i.width⟩ ∈ p.listing.lines ∧ Instruction.decode p.bytecode s.pc = .ok i ∧
        ((∃ next, step p.bytecode subject.toUTF8.data s = .next next) ∨
          i = .accept ∧ step p.bytecode subject.toUTF8.data s = .stop .accepted ∨
          i = .fail ∧ step p.bytecode subject.toUTF8.data s = .stop .rejected)) ∧
      (judge p.bytecode subject).log = [] := by
  obtain ⟨tree, -, hends⟩ := compile_ends h
  obtain ⟨t, ht⟩ := hends subject.toUTF8.data
  refine ⟨?_, ?_⟩
  · intro s hs
    obtain ⟨hsound, hgoes⟩ := ht.of_reached hs
    refine ⟨hsound.cursor_le, ?_⟩
    rcases hgoes with ⟨next, hnext⟩ | hi | hi
    · obtain ⟨i, hi⟩ := exists_decode_of_step hnext
      exact ⟨i, hsound.boundary.exists_line hi, hi, .inl ⟨next, hnext⟩⟩
    · exact ⟨.accept, hsound.boundary.exists_line hi, hi, .inr (.inl ⟨rfl, step_of_decode hi⟩)⟩
    · exact ⟨.fail, hsound.boundary.exists_line hi, hi, .inr (.inr ⟨rfl, step_of_decode hi⟩)⟩
  · rw [ht.judge_eq]
    cases tree.eval subject.toUTF8.data <;> rfl

theorem reached_consistent_pairLoop : (∃ i, ⟨0, i, i.width⟩ ∈ pairLoop.listing.lines) ∧
    (judge pairLoop.bytecode "abac").log = [] := by
  obtain ⟨hreached, hlog⟩ := reached_consistent compile_pairLoop "abac"
  obtain ⟨-, i, hline, -⟩ := hreached {} .refl
  exact ⟨⟨i, hline⟩, hlog⟩

end

end PatternEngine

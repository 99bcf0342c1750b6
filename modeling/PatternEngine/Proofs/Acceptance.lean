import PatternEngine.Proofs.Fitting
import PatternEngine.Proofs.Matching

/-!
# Which patterns compile

The scanner and the parser together refuse what is not in the grammar. What is
in the grammar compiles within three limits: the length of the source, the
number of groups and the size of the program. That size is known from the tree
alone, as the size of its layout. A limit on it above the largest program that
jumps can span counts as that largest size.
-/

namespace PatternEngine

namespace Tree

/-- The size in bytes of the program of a tree. -/
def programSize (tree : Tree) : Nat := tree.layout.code.size

variable {tree : Tree} {source : String} {tokens : List Token} {groups maxLength : Nat}

theorem layout_sound (tree : Tree) : tree.layout.Sound := by
  cases tree with
  | none => exact Layout.empty_sound
  | some e => exact Layout.ofExpr_sound e

theorem OfTokens.exists_program (h : tree.OfTokens tokens groups)
    (hsize : tree.programSize ≤ min maxLength maxProgramLength) :
    ∃ program, Program.ofTokens tokens maxLength = .ok program ∧
      program.bytecode.size = tree.programSize ∧ program.groups = groups := by
  obtain ⟨code, hcode, hcodesize⟩ :=
    tree.layout_sound.exists_assemble (Nat.min_le_right ..) hsize
  exact ⟨⟨code, groups⟩, by rw [h.program_eq, hcode]; rfl, hcodesize, rfl⟩

theorem OfTokens.program_eq_error (h : tree.OfTokens tokens groups)
    (hsize : min maxLength maxProgramLength < tree.programSize) :
    ∃ requested, Program.ofTokens tokens maxLength =
      .error (outOfRoom (min maxLength maxProgramLength) requested) := by
  obtain ⟨requested, hcode, -⟩ := Layout.assemble_eq_error hsize
  exact ⟨requested, by rw [h.program_eq, hcode]; rfl⟩

/-- The tokens of a pattern of the grammar stand for its tree unless it opens
too many groups. -/
theorem Of.exists_tokens (h : tree.Of source groups) : ∃ tokens, lex source = .ok tokens ∧
    (groups ≤ maxGroups → tree.OfTokens tokens groups) ∧
    (maxGroups < groups →
      ∃ halt, parse tokens = .error halt ∧ halt.refusal.error = .tooManyGroups) := by
  cases tree with
  | none =>
    obtain ⟨hnil, rfl⟩ := h
    exact ⟨[], lex_eq_ok.mpr ⟨[], hnil ▸ .nil, rfl⟩, fun _ => ⟨rfl, rfl⟩, nofun⟩
  | some e =>
    obtain ⟨ts, hts, -, hparse, hfull⟩ := parse_of_spells h
    exact ⟨join false ts, lex_eq_ok.mpr ⟨ts, hts, rfl⟩, hparse, hfull⟩

end Tree

theorem Halt.code_error {halt : Halt} (h : halt.refusal.error = .tooManyGroups) (limit : Nat) :
    (halt.error limit).code = .resourceExhausted := by
  unfold Halt.error
  split
  · rw [h]
    rfl
  · rfl

theorem Program.ofTokens_eq_error {tokens : List Token} {halt : Halt}
    (h : parse tokens = .error halt) (hfull : halt.refusal.error = .tooManyGroups)
    (maxLength : Nat) : ∃ e, Program.ofTokens tokens maxLength = .error e ∧
      e.code = .resourceExhausted := by
  have hne : tokens ≠ [] := by
    rintro rfl
    cases h
    cases hfull
  exact ⟨_, ofTokens_of_halt hne h maxLength, Halt.code_error hfull _⟩

theorem Halt.error_cases (halt : Halt) (limit : Nat) :
    halt.error limit = .malformed halt.refusal.error ∨
      ∃ requested, halt.error limit = outOfRoom limit requested := by
  unfold Halt.error
  split
  · exact .inl rfl
  · exact .inr ⟨_, rfl⟩

theorem Layout.Sound.error_of_assemble {layout : Layout} {limit : Nat} {e : CompileError}
    (h : layout.Sound) (hlimit : limit ≤ maxProgramLength)
    (he : layout.assemble limit = .error e) : ∃ requested, e = outOfRoom limit requested := by
  by_cases hsize : layout.code.size ≤ limit
  · obtain ⟨code, hcode, -⟩ := h.exists_assemble hlimit hsize
    exact nomatch he.symm.trans hcode
  · obtain ⟨requested, hrequested, -⟩ := assemble_eq_error (Nat.lt_of_not_le hsize)
    cases he.symm.trans hrequested
    exact ⟨requested, rfl⟩

/-- Tokens have no program because they do not parse, or because the limit
leaves no room. -/
theorem Program.error_of_ofTokens {tokens : List Token} {maxLength : Nat} {e : CompileError}
    (h : ofTokens tokens maxLength = .error e) :
    (∃ halt, tokens ≠ [] ∧ parse tokens = .error halt ∧ e = .malformed halt.refusal.error) ∨
      ∃ requested, e = outOfRoom (min maxLength maxProgramLength) requested := by
  rcases Tree.ofTokens_or_halt tokens with ⟨tree, groups, htree⟩ | ⟨halt, hne, hparse⟩
  · rw [htree.program_eq maxLength] at h
    cases hcode : tree.layout.assemble (min maxLength maxProgramLength) with
    | ok code => rw [hcode] at h; cases h
    | error e' =>
      rw [hcode] at h
      cases h
      exact .inr (tree.layout_sound.error_of_assemble (Nat.min_le_right ..) hcode)
  · rw [ofTokens_of_halt hne hparse] at h
    cases h
    rcases halt.error_cases (min maxLength maxProgramLength) with herror | hroom
    · exact .inl ⟨halt, hne, hparse, herror⟩
    · exact .inr hroom

section
variable {options : CompileOptions} {source : String} {tokens : List Token}

theorem compile_of_lex (hsource : source.utf8ByteSize ≤ options.maxPatternLength)
    (hlex : lex source = .ok tokens) : compile options source =
      (Program.ofTokens tokens options.maxProgramLength).map
        fun program => ⟨source, program.bytecode, program.groups⟩ := by
  rw [compile, if_neg (Nat.not_lt.mpr hsource), hlex]
  cases hprogram : Program.ofTokens tokens options.maxProgramLength <;>
    simp only [hprogram] <;> rfl

/-- A pattern outside the grammar does not compile. One of the grammar does, to
a program of the size of its tree, as long as it stays within the limits: its
length, its groups and the size of its program, which distances of 32 bits must
be able to span as well. Beyond a limit the error is one of exhausted resources:
the pattern is too long, or groups or bytes of the program ran out. -/
theorem compile_accepts_grammar (options : CompileOptions) (source : String) :
    ((¬∃ (tree : Tree) (groups : Nat), tree.Of source groups) →
      ∃ e, compile options source = .error e) ∧
    ∀ (tree : Tree) (groups : Nat), tree.Of source groups →
      if source.utf8ByteSize ≤ options.maxPatternLength ∧ groups ≤ maxGroups ∧
          tree.programSize ≤ min options.maxProgramLength maxProgramLength then
        ∃ p, compile options source = .ok p ∧ p.bytecode.size = tree.programSize ∧
          p.groups = groups
      else ∃ e, compile options source = .error e ∧ e.code = .resourceExhausted := by
  refine ⟨fun houtside => ?_, fun tree groups htree => ?_⟩
  · cases hcompile : compile options source with
    | error e => exact ⟨e, rfl⟩
    | ok p =>
      obtain ⟨tree, ⟨htree, -⟩, -⟩ := compile_ends hcompile
      exact absurd ⟨tree, p.groups, htree⟩ houtside
  · obtain ⟨tokens, hlex, hfew, hmany⟩ := htree.exists_tokens
    by_cases hsource : source.utf8ByteSize ≤ options.maxPatternLength
    · have hcompile := compile_of_lex hsource hlex
      by_cases hgroups : groups ≤ maxGroups
      · have htokens := hfew hgroups
        by_cases hsize : tree.programSize ≤ min options.maxProgramLength maxProgramLength
        · rw [if_pos ⟨hsource, hgroups, hsize⟩]
          obtain ⟨program, hprogram, hbytes, hcount⟩ := htokens.exists_program hsize
          exact ⟨_, by rw [hcompile, hprogram]; rfl, hbytes, hcount⟩
        · rw [if_neg fun hall => hsize hall.2.2]
          obtain ⟨requested, hprogram⟩ := htokens.program_eq_error (Nat.lt_of_not_le hsize)
          exact ⟨_, by rw [hcompile, hprogram]; rfl, rfl⟩
      · rw [if_neg fun hall => hgroups hall.2.1]
        obtain ⟨halt, hparse, hfull⟩ := hmany (Nat.lt_of_not_le hgroups)
        obtain ⟨e, hprogram, hcode⟩ :=
          Program.ofTokens_eq_error hparse hfull options.maxProgramLength
        exact ⟨e, by rw [hcompile, hprogram]; rfl, hcode⟩
    · rw [if_neg fun hall => hsource hall.1]
      exact ⟨_, by rw [compile, if_pos (Nat.lt_of_not_le hsource)], rfl⟩

theorem compile_accepts_grammar_pairLoop : (∃ e, compile {} "a**" = .error e) ∧
    ∃ p, compile {} "(ab)*c" = .ok p ∧ p.bytecode.size = pairLoopTree.programSize ∧
      p.groups = 1 := by
  refine ⟨(compile_accepts_grammar {} "a**").1 ?_, ?_⟩
  · rintro ⟨tree, groups, htree⟩
    have herror : compile {} "a**" = .error (.malformed (.invalidOperator 2 "*")) := by cbv
    have hall := (compile_accepts_grammar {} "a**").2 tree groups htree
    rw [herror] at hall
    split at hall
    · obtain ⟨p, hp, -⟩ := hall
      cases hp
    · obtain ⟨e, he, hcode⟩ := hall
      cases he
      cases hcode
  · have hall := (compile_accepts_grammar {} "(ab)*c").2 pairLoopTree 1 pairLoopTree_of
    rwa [if_pos (by decide +kernel)] at hall

end

end PatternEngine

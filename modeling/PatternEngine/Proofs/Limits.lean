import PatternEngine.Proofs.Acceptance

/-!
# The limit on the size of a program

The limit decides whether a pattern compiles and has no say in what it compiles
to. A program that is found under some limit is therefore found under all that
it fits in. Under a smaller one the claim that runs out of room asks for more
than the limit and never for more than the program takes, because every claim
is for bytes that the program has.
-/

namespace PatternEngine

def CompileOptions.within (options : CompileOptions) (limit : Nat) : CompileOptions :=
  { options with maxProgramLength := limit }

namespace Layout

variable {layout : Layout} {limit other : Nat} {code : Array UInt8}

theorem size_of_assemble (h : layout.assemble limit = .ok code) : code.size = layout.code.size := by
  simpa using Rope.size_of_write (write_of_assemble h).1

theorem size_le_of_assemble (h : layout.assemble limit = .ok code) : code.size ≤ limit := by
  refine Nat.le_of_not_lt fun hlt => ?_
  rw [size_of_assemble h] at hlt
  obtain ⟨requested, herror, -⟩ := assemble_eq_error hlt
  rw [h] at herror
  cases herror

theorem assemble_of_size_le (h : layout.assemble limit = .ok code) (hsize : code.size ≤ other) :
    layout.assemble other = .ok code := by
  obtain ⟨hwrite, hverify⟩ := write_of_assemble h
  rw [size_of_assemble h] at hsize
  have hclaim : layout.code.claim other 0 = .ok (0 + layout.code.size) :=
    layout.code.rope.claim_eq_ok (by rwa [Nat.zero_add])
  simp only [assemble, hclaim, hwrite, bind, Except.bind, hverify]
  rfl

end Layout

namespace Program

variable {tokens : List Token} {program : Program} {limit other : Nat}

theorem size_le_of_ofTokens (h : ofTokens tokens limit = .ok program) :
    program.bytecode.size ≤ min limit maxProgramLength := by
  obtain ⟨tree, -, hcode⟩ := exists_layout h
  exact Layout.size_le_of_assemble hcode

/-- One limit finds the same program as another, or none. -/
theorem ofTokens_of_size_le (h : ofTokens tokens limit = .ok program)
    (hsize : program.bytecode.size ≤ min other maxProgramLength) :
    ofTokens tokens other = .ok program := by
  obtain ⟨tree, htree, hcode⟩ := exists_layout h
  rw [htree.program_eq, Layout.assemble_of_size_le hcode hsize]
  rfl

theorem ofTokens_of_lt_size (h : ofTokens tokens limit = .ok program)
    (hother : other < program.bytecode.size) : ∃ requested,
      ofTokens tokens other = .error (outOfRoom other requested) ∧ other < requested ∧
        requested ≤ program.bytecode.size := by
  have hlargest := (size_le_of_ofTokens h).trans (Nat.min_le_right ..)
  obtain ⟨tree, htree, hcode⟩ := exists_layout h
  have hmin : min other maxProgramLength = other := by omega
  rw [Layout.size_of_assemble hcode] at hother ⊢
  obtain ⟨requested, herror, hlt, hle⟩ := Layout.assemble_eq_error hother
  refine ⟨requested, ?_, hlt, hle⟩
  rw [htree.program_eq, hmin, herror]
  rfl

end Program

section
variable {options : CompileOptions} {source : String} {p : Pattern}

/-- A pattern that compiles has tokens, and any limit on its program leaves the
rest of the compilation as it is. -/
theorem exists_program_of_compile (h : compile options source = .ok p) :
    ∃ tokens program, Program.ofTokens tokens options.maxProgramLength = .ok program ∧
      p = ⟨source, program.bytecode, program.groups⟩ ∧
      ∀ limit, compile (options.within limit) source = (Program.ofTokens tokens limit).map
        fun program => ⟨source, program.bytecode, program.groups⟩ := by
  by_cases hsource : source.utf8ByteSize ≤ options.maxPatternLength
  · cases hlex : lex source with
    | error cause => simp [compile, Nat.not_lt.mpr hsource, hlex] at h
    | ok tokens =>
      rw [compile_of_lex hsource hlex] at h
      cases hprogram : Program.ofTokens tokens options.maxProgramLength with
      | error e => simp [hprogram, Except.map] at h
      | ok program =>
        simp only [hprogram, Except.map, Except.ok.injEq] at h
        have hwithin : ∀ limit, source.utf8ByteSize ≤ (options.within limit).maxPatternLength :=
          fun _ => hsource
        exact ⟨tokens, program, hprogram, h.symm, fun limit => compile_of_lex (hwithin limit) hlex⟩
  · simp [compile, Nat.lt_of_not_le hsource] at h

theorem compile_of_size_le (h : compile options source = .ok p) {limit : Nat}
    (hlimit : p.bytecode.size ≤ min limit maxProgramLength) :
    compile (options.within limit) source = .ok p := by
  obtain ⟨tokens, program, hprogram, rfl, hcompile⟩ := exists_program_of_compile h
  rw [hcompile, Program.ofTokens_of_size_le hprogram hlimit]
  rfl

theorem size_le_of_compile (h : compile options source = .ok p) :
    p.bytecode.size ≤ min options.maxProgramLength maxProgramLength := by
  obtain ⟨tokens, program, hprogram, rfl, -⟩ := exists_program_of_compile h
  exact Program.size_le_of_ofTokens hprogram

theorem compile_of_lt_size (h : compile options source = .ok p) {limit : Nat}
    (hlimit : limit < p.bytecode.size) : ∃ requested,
      compile (options.within limit) source = .error (outOfRoom limit requested) ∧
        limit < requested ∧ requested ≤ p.bytecode.size := by
  obtain ⟨tokens, program, hprogram, rfl, hcompile⟩ := exists_program_of_compile h
  obtain ⟨requested, herror, hlt, hle⟩ := Program.ofTokens_of_lt_size hprogram hlimit
  exact ⟨requested, by rw [hcompile, herror]; rfl, hlt, hle⟩

theorem compile_of_maxProgramLength_le {limit : Nat} (h : maxProgramLength ≤ limit) :
    compile (options.within limit) source = compile (options.within maxProgramLength) source := by
  have hprogram : ∀ tokens, Program.ofTokens tokens limit =
      Program.ofTokens tokens maxProgramLength := by
    intro tokens
    simp only [Program.ofTokens, Nat.min_eq_right h, Nat.min_self]
  simp only [compile, CompileOptions.within, hprogram]
  rfl

/-- The size of a program is the threshold of the limit. A pattern that compiles
under the largest limit compiles to the same program under each limit that the
program fits in. Under each smaller one bytes run out, and the error names the
limit and a number of bytes between it and the size of the program. A pattern
that does not compile under the largest limit compiles under none, and limits
above the largest are no different from it. -/
theorem compile_threshold (options : CompileOptions) (source : String) :
    (∀ p, compile (options.within maxProgramLength) source = .ok p → ∀ limit,
      (p.bytecode.size ≤ limit → compile (options.within limit) source = .ok p) ∧
      (limit < p.bytecode.size → ∃ requested, compile (options.within limit) source =
          .error (.resourceLimit .bytecode requested limit) ∧
        limit < requested ∧ requested ≤ p.bytecode.size)) ∧
    (∀ e, compile (options.within maxProgramLength) source = .error e →
      ∀ limit, ∃ e', compile (options.within limit) source = .error e') ∧
    ∀ limit, maxProgramLength ≤ limit →
      compile (options.within limit) source = compile (options.within maxProgramLength) source := by
  refine ⟨fun p hp limit => ⟨fun hle => ?_, fun hlt => ?_⟩, fun e he limit => ?_,
    fun _ => compile_of_maxProgramLength_le⟩
  · have hlargest : p.bytecode.size ≤ min maxProgramLength maxProgramLength :=
      size_le_of_compile hp
    exact compile_of_size_le hp (Nat.le_min.mpr ⟨hle, hlargest.trans (Nat.min_le_right ..)⟩)
  · exact compile_of_lt_size hp hlt
  · cases hlimit : compile (options.within limit) source with
    | error e' => exact ⟨e', rfl⟩
    | ok p =>
      -- what compiles under any limit fits into the largest
      have hsize := (size_le_of_compile hlimit).trans (Nat.min_le_right ..)
      have hlargest : compile (options.within maxProgramLength) source = .ok p :=
        compile_of_size_le hlimit (Nat.le_min.mpr ⟨hsize, hsize⟩)
      rw [he] at hlargest
      cases hlargest

def singleLoop : Pattern where
  source := "a+"
  bytecode := #[1, 97, 8, 12, 0, 0, 0, 10, 1, 97, 8, 11, 255, 255, 255, 248, 14, 1, 12, 0, 0, 0, 1,
    17, 18]
  groups := 0

/-- The copy of the body claims its room at once, up to byte 18. -/
theorem compile_threshold_singleLoop :
    compile { maxProgramLength := 25 } "a+" = .ok singleLoop ∧
    (∃ requested, compile { maxProgramLength := 17 } "a+" =
      .error (.resourceLimit .bytecode requested 17) ∧ 17 < requested ∧ requested ≤ 25) ∧
    ∃ e, compile { maxProgramLength := 0 } "a+)" = .error e := by
  have hloop : compile { maxProgramLength := maxProgramLength } "a+" = .ok singleLoop := by cbv
  have hclose : compile { maxProgramLength := maxProgramLength } "a+)" =
      .error (.malformed (.mismatchedParentheses 2)) := by cbv
  refine ⟨((compile_threshold {} "a+").1 singleLoop hloop 25).1 (by decide),
    ((compile_threshold {} "a+").1 singleLoop hloop 17).2 (by decide),
    (compile_threshold {} "a+)").2.1 _ hclose 0⟩

end

end PatternEngine

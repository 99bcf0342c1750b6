import PatternEngine.Proofs.Acceptance
import PatternEngine.Proofs.Continuations

/-!
# Where a pattern goes wrong

An error of syntax tells where a pattern stops being the start of one that
compiles. The parser halts at the first token that cannot be continued, and what
it says depends on that token and on what stands before it. A text that can be
continued to its end lacks an operand or a closing parenthesis there.
-/

namespace PatternEngine

/-! ### The first token that cannot be continued -/

/-- A token with which no accepted pattern goes on, behind tokens with which one
still does. -/
structure FirstStuck (tokens before : List Token) (t : Token) : Prop where
  within : before ++ [t] <+: tokens
  viable : Viable before
  stuck : ¬Viable (before ++ [t])

namespace FirstStuck

variable {tokens before other : List Token} {t u : Token}

theorem length_le (h : FirstStuck tokens before t) (hother : FirstStuck tokens other u) :
    before.length ≤ other.length := by
  refine Nat.le_of_not_lt fun hlt => hother.stuck (h.viable.of_initial ?_)
  refine List.prefix_of_prefix_length_le hother.within
    ((List.prefix_append before [t]).trans h.within) ?_
  rw [List.length_append, List.length_singleton]
  exact hlt

theorem unique (h : FirstStuck tokens before t) (hother : FirstStuck tokens other u) :
    other = before ∧ u = t := by
  have hlength : other.length = before.length :=
    Nat.le_antisymm (hother.length_le h) (h.length_le hother)
  have hprefix : other ++ [u] <+: before ++ [t] := by
    refine List.prefix_of_prefix_length_le hother.within h.within ?_
    simp only [List.length_append, List.length_singleton, hlength, Nat.le_refl]
  have heq : other ++ [u] = before ++ [t] := hprefix.eq_of_length (by simp [hlength])
  obtain ⟨hbefore, htokens⟩ := List.append_inj heq hlength
  exact ⟨hbefore, List.singleton_injective htokens⟩

end FirstStuck

/-! ### What stands before a token -/

/-- An operand must come next: at the start, behind an opening parenthesis and
behind an operator with two operands. -/
def AwaitsOperand (ts : List Token) : Prop :=
  ∀ t ∈ ts.getLast?,
    t.kind = .groupOpen ∨ t.kind = .operator .alternate ∨ t.kind = .operator .concatenate

def Token.unclosed (outer : List Nat) (t : Token) : List Nat :=
  match t.kind with
  | .groupOpen => t.offset :: outer
  | .groupClose => outer.tail
  | _ => outer

/-- The offsets of the groups that tokens leave open, the innermost in front. -/
def openGroups (ts : List Token) : List Nat := ts.foldl Token.unclosed []

theorem Takes.isComplete_eq_false {s next : ParseState} {t : Token} (h : Takes s t next) :
    next.isComplete = false ↔
      t.kind = .groupOpen ∨ t.kind = .operator .alternate ∨ t.kind = .operator .concatenate := by
  cases h with
  | leaf he =>
    rcases kind_of_leaf? he with hkind | hkind | hkind <;> simp [ParseState.isComplete, hkind]
  | groupOpen hk | concatenate hk | alternate hk | quantify hk | groupClose hk =>
    simp [ParseState.isComplete, hk]

theorem TakesAll.awaitsOperand {s : ParseState} {ts : List Token} (h : TakesAll {} ts s) :
    AwaitsOperand ts ↔ s.isComplete = false := by
  rcases List.eq_nil_or_concat ts with rfl | ⟨us, t, rfl⟩
  · cases h
    simp [AwaitsOperand, ParseState.isComplete]
  · rw [List.concat_eq_append] at h ⊢
    obtain ⟨middle, -, hlast⟩ := takesAll_append.mp h
    cases hlast with
    | cons ht hnil =>
      cases hnil
      rw [ht.isComplete_eq_false]
      simp [AwaitsOperand]

theorem Takes.unclosed {s next : ParseState} {t : Token} (h : Takes s t next) :
    next.enclosing.map (·.offset) = t.unclosed (s.enclosing.map (·.offset)) := by
  cases h with
  | leaf he =>
    rcases kind_of_leaf? he with hkind | hkind | hkind <;> simp only [Token.unclosed, hkind]
  | groupOpen hk | concatenate hk | alternate hk | quantify hk | groupClose hk =>
    simp only [Token.unclosed, hk, List.map_cons, List.tail_cons]

theorem TakesAll.unclosed {s last : ParseState} {ts : List Token} (h : TakesAll s ts last) :
    last.enclosing.map (·.offset) = ts.foldl Token.unclosed (s.enclosing.map (·.offset)) := by
  induction h with
  | nil => rfl
  | cons ht _ ih => rw [ih, ht.unclosed, List.foldl_cons]

/-- Behind a complete operand no other one follows without an operator. -/
theorem startsOperand_of_lex {source : String} {before after : List Token} {t : Token}
    {s : ParseState} (hlex : lex source = .ok (before ++ t :: after)) (h : TakesAll {} before s)
    (hs : s.isComplete = true) : t.startsOperand = false := by
  obtain ⟨ts, -, hjoin⟩ := lex_eq_ok.mp hlex
  obtain ⟨firsts, others, -, ⟨rfl, hafter⟩ | ⟨u, rest, rfl, -⟩⟩ := exists_cut_of_join hjoin.symm
  · have hcomplete : completes false firsts = true := by
      rw [← completes_join, ← hs, h.isComplete]
      rfl
    rw [hcomplete] at hafter
    exact startsOperand_of_join hafter
  · obtain ⟨middle, -, hlast⟩ := takesAll_append.mp h
    cases hlast with
    | cons ht hnil =>
      cases hnil
      rw [ht.isComplete_eq_false.mpr (.inr (.inr rfl))] at hs
      cases hs

/-! ### Errors at a token -/

/-- The errors that blame a token for where it stands. -/
inductive Blame (before : List Token) (t : Token) : SyntaxError → Prop where
  | operator {op : Operator} (h : t.kind = .operator op) :
    Blame before t (.invalidOperator t.offset t.displayText)
  | charClass (h : t.kind = .charClass) (hbody : CharClass.ofBody? t.text = none) :
    Blame before t (.invalidToken t.offset t.displayText)
  | operandMissing (h : t.kind = .groupClose) (hawaits : AwaitsOperand before) :
    Blame before t (.unexpectedEnd t.offset)
  | unopened (h : t.kind = .groupClose) (hcomplete : ¬AwaitsOperand before)
      (hopen : openGroups before = []) : Blame before t (.mismatchedParentheses t.offset)

theorem blame_of_takeOperand {before : List Token} {t : Token} {s : ParseState}
    {refusal : Refusal} (hkinds : t.kind ≠ .invalid ∧ (t.kind = .literal → ∃ e, t.leaf? = some e))
    (hawaits : AwaitsOperand before) (h : s.takeOperand t = .error refusal)
    (hfull : refusal.error ≠ .tooManyGroups) : Blame before t refusal.error := by
  simp only [ParseState.takeOperand] at h
  split at h
  case h_1 hkind =>
    obtain ⟨e, he⟩ := hkinds.2 hkind
    simp [he] at h
  case h_2 hkind => simp [Token.leaf?, hkind] at h
  case h_3 hkind =>
    split at h
    · cases h
    · rename_i hnone
      cases h
      refine .charClass hkind ?_
      simpa [Token.leaf?, hkind] using hnone
  case h_4 =>
    split at h
    · cases h
    · cases h
      exact absurd rfl hfull
  case h_5 hkind =>
    cases h
    exact .operandMissing hkind hawaits
  case h_6 op hkind =>
    cases h
    exact .operator hkind
  case h_7 hkind => exact absurd hkind hkinds.1

theorem blame_of_takeAfterTerm {before : List Token} {t : Token} {s : ParseState} {last : Expr}
    {q : Bool} {n : Nat} {refusal : Refusal} (hinvalid : t.kind ≠ .invalid)
    (hstarts : t.startsOperand = false) (hcomplete : ¬AwaitsOperand before)
    (hopen : openGroups before = s.enclosing.map (·.offset))
    (h : s.takeAfterTerm last q t n = .error refusal) : Blame before t refusal.error := by
  obtain ⟨groups, gs, l, phase⟩ := s
  simp only [ParseState.takeAfterTerm] at h
  split at h
  case h_1 | h_2 => cases h
  case h_3 op hkind =>
    split at h
    · cases h
      exact .operator hkind
    · cases h
  case h_4 hkind =>
    cases gs with
    | cons g gs => cases h
    | nil =>
      simp only [ParseState.refuse, hkind] at h
      cases h
      exact .unopened hkind hcomplete hopen
  case h_5 hconcat halternate hquantify hclose =>
    -- only operands are left, and none starts behind a complete one
    cases hkind : t.kind with
    | literal | anyByte | charClass | groupOpen => simp [Token.startsOperand, hkind] at hstarts
    | groupClose => exact absurd hkind hclose
    | invalid => exact absurd hkind hinvalid
    | operator op =>
      cases op with
      | concatenate => exact absurd hkind hconcat
      | alternate => exact absurd hkind halternate
      | quantify q => exact absurd hkind (hquantify q)

/-- A refused token of a pattern is to blame. -/
theorem blame_of_take {source : String} {before after : List Token} {t : Token} {s : ParseState}
    {n : Nat} {refusal : Refusal} (hlex : lex source = .ok (before ++ t :: after))
    (hbefore : TakesAll {} before s) (h : s.take t n = .error refusal)
    (hfull : refusal.error ≠ .tooManyGroups) : Blame before t refusal.error := by
  have hkinds := kind_of_mem_lex hlex (List.mem_append_right before (List.mem_cons_self ..))
  have hawaits := hbefore.awaitsOperand
  have hopen := hbefore.unclosed
  have hstarts := startsOperand_of_lex hlex hbefore
  obtain ⟨groups, gs, l, phase⟩ := s
  cases phase with
  | operand => exact blame_of_takeOperand hkinds (hawaits.mpr rfl) h hfull
  | term last q =>
    have hcomplete : ¬AwaitsOperand before := fun hmissing => nomatch hawaits.mp hmissing
    exact blame_of_takeAfterTerm hkinds.1 (hstarts rfl) hcomplete hopen.symm h

/-! ### Errors at the end -/

/-- The last character of a text is one behind which an operand must come. -/
def EndsOpen (source : String) : Prop :=
  source.toList.getLast? = some '|' ∨ source.toList.getLast? = some '('

/-- The errors of a text that ends too early. -/
inductive Unfinished (source : String) (tokens : List Token) : SyntaxError → Prop where
  | operandMissing (h : EndsOpen source) :
    Unfinished source tokens (.unexpectedEnd source.utf8ByteSize)
  | unclosed {offset : Nat} {outer : List Nat} (h : ¬EndsOpen source)
      (hopen : openGroups tokens = offset :: outer) :
    Unfinished source tokens (.mismatchedParentheses offset)

theorem exists_last_of_lex {source : String} {tokens : List Token}
    (hlex : lex source = .ok tokens) (hne : tokens ≠ []) : ∃ t c, tokens.getLast? = some t ∧
      t.stop = source.utf8ByteSize ∧ source.toList.getLast? = some c ∧
        (t.kind.WrittenAs c ∨ t.kind = .charClass ∧ c = ']') := by
  obtain ⟨ts, hts, rfl⟩ := lex_eq_ok.mp hlex
  rcases List.eq_nil_or_concat ts with rfl | ⟨us, t, rfl⟩
  · exact absurd rfl hne
  · rw [List.concat_eq_append] at hts ⊢
    obtain ⟨hstop, c, hc, hkind⟩ := hts.last
    refine ⟨t, c, ?_, ?_, hc, hkind⟩
    · rw [join_append]
      simp only [join]
      split <;> simp
    · rw [hstop, Nat.zero_add, ← String.utf8ByteSize_ofList, String.ofList_toList]

theorem TokenKind.WrittenAs.eq_of_ofChar? {kind other : TokenKind} {c : Char}
    (h : kind.WrittenAs c) (hother : Symbol.ofChar? c = some (.single other)) : kind = other := by
  have := Symbol.ofChar?_eq_single.mpr h
  rw [hother] at this
  cases this
  rfl

theorem endsOpen_iff {source : String} {tokens : List Token} (hlex : lex source = .ok tokens)
    (hne : tokens ≠ []) : EndsOpen source ↔ AwaitsOperand tokens := by
  obtain ⟨t, c, ht, -, hc, hkind⟩ := exists_last_of_lex hlex hne
  simp only [EndsOpen, AwaitsOperand, ht, hc, Option.mem_def, Option.some.injEq, forall_eq']
  constructor
  · rintro (rfl | rfl)
    · rcases hkind with hkind | ⟨-, hc⟩
      · exact .inr (.inl (hkind.eq_of_ofChar? rfl))
      · cases hc
    · rcases hkind with hkind | ⟨-, hc⟩
      · exact .inl (hkind.eq_of_ofChar? rfl)
      · cases hc
  · intro hlast
    rcases hkind with hkind | ⟨hclass, -⟩
    · rcases hlast with hlast | hlast | hlast <;> rw [hlast] at hkind
      · exact .inr hkind
      · exact .inl hkind
      · exact hkind.elim
    · rw [hclass] at hlast
      rcases hlast with hlast | hlast | hlast <;> cases hlast

/-- Tokens that are all taken and do not finish end too early. -/
theorem unfinished_of_finish {source : String} {tokens : List Token} {s : ParseState}
    {refusal : Refusal} (hlex : lex source = .ok tokens) (hne : tokens ≠ [])
    (htokens : TakesAll {} tokens s)
    (h : s.finish (tokens.getLast?.elim 0 Token.stop) = .error refusal) :
    Unfinished source tokens refusal.error := by
  obtain ⟨t, c, ht, hstop, -⟩ := exists_last_of_lex hlex hne
  have hends := (endsOpen_iff hlex hne).trans htokens.awaitsOperand
  have hopen := htokens.unclosed
  obtain ⟨groups, gs, l, phase⟩ := s
  cases phase with
  | operand =>
    cases h
    rw [ht, Option.elim_some, hstop]
    exact .operandMissing (hends.mpr rfl)
  | term last q =>
    cases gs with
    | nil => cases h
    | cons g gs =>
      cases h
      exact .unclosed (fun hopen => nomatch hends.mp hopen) hopen.symm

/-! ### Compilation -/

section
variable {options : CompileOptions} {source : String} {tokens : List Token} {e : CompileError}

/-- An error that no limit causes is one of the parse. -/
theorem exists_halt_of_compile (hlex : lex source = .ok tokens)
    (h : compile options source = .error e) (hlimits : e.code ≠ .resourceExhausted) :
    ∃ halt, tokens ≠ [] ∧ parse tokens = .error halt ∧ e = .malformed halt.refusal.error := by
  by_cases hsource : source.utf8ByteSize ≤ options.maxPatternLength
  · rw [compile_of_lex hsource hlex] at h
    cases hprogram : Program.ofTokens tokens options.maxProgramLength with
    | ok program => rw [hprogram] at h; cases h
    | error e' =>
      rw [hprogram] at h
      cases h
      rcases Program.error_of_ofTokens hprogram with hhalt | ⟨requested, rfl⟩
      · exact hhalt
      · exact absurd rfl hlimits
  · rw [compile, if_pos (Nat.lt_of_not_le hsource)] at h
    cases h
    exact absurd rfl hlimits

/-- Where no limit is in the way, the patterns that compile are the accepted ones. -/
theorem accepted_iff_compile
    (hlimits : ∀ e, compile options source = .error e → e.code ≠ .resourceExhausted) :
    Accepted source ↔ ∃ p, compile options source = .ok p := by
  constructor
  · rintro ⟨tree, groups, htree⟩
    obtain ⟨tokens, hlex, hfew, hmany⟩ := htree.exists_tokens
    cases hcompile : compile options source with
    | ok p => exact ⟨p, rfl⟩
    | error e =>
      obtain ⟨halt, hne, hparse, rfl⟩ := exists_halt_of_compile hlex hcompile (hlimits e hcompile)
      by_cases hgroups : groups ≤ maxGroups
      · cases tree with
        | none => exact absurd (hfew hgroups).1 hne
        | some e =>
          have htokens : parse tokens = .ok ⟨e, groups⟩ := hfew hgroups
          exact nomatch hparse.symm.trans htokens
      · obtain ⟨halt', hparse', hfull⟩ := hmany (Nat.lt_of_not_le hgroups)
        cases hparse.symm.trans hparse'
        exact absurd (by rw [hfull]; rfl) (hlimits _ hcompile)
  · rintro ⟨p, hp⟩
    obtain ⟨tree, ⟨htree, -⟩, -⟩ := compile_ends hp
    exact ⟨tree, p.groups, htree⟩

/-- The parser halts at the first token that cannot be continued. -/
theorem firstStuck_of_take {before after : List Token} {t : Token} {s : ParseState} {n : Nat}
    {refusal : Refusal} (hlex : lex source = .ok (before ++ t :: after))
    (hbefore : TakesAll {} before s) (hgroups : s.groups ≤ maxGroups)
    (h : s.take t n = .error refusal) (hfull : refusal.error ≠ .tooManyGroups) :
    FirstStuck (before ++ t :: after) before t := by
  refine ⟨⟨after, by simp⟩, viable_of_takesAll hlex hbefore, fun hviable => ?_⟩
  obtain ⟨next, hnext⟩ := takes_of_viable hlex hbefore hviable
  by_cases hroom : next.groups ≤ maxGroups
  · exact nomatch h.symm.trans (take_of_takes hnext hroom n)
  · cases h.symm.trans (take_eq_error hnext hgroups (Nat.lt_of_not_le hroom) n)
    exact hfull rfl

theorem not_firstStuck_of_takesAll {before : List Token} {t : Token} {s : ParseState}
    (hlex : lex source = .ok tokens) (h : TakesAll {} tokens s) : ¬FirstStuck tokens before t := by
  intro hstuck
  rw [← List.append_nil tokens] at hlex
  exact hstuck.stuck ((viable_of_takesAll hlex h).of_initial hstuck.within)

theorem compile_error_cases (hlex : lex source = .ok tokens)
    (h : compile options source = .error e) (hlimits : e.code ≠ .resourceExhausted) :
    ∃ cause, e = .malformed cause ∧
      ((∃ before t, FirstStuck tokens before t ∧ Blame before t cause) ∨
        (∀ before t, ¬FirstStuck tokens before t) ∧
          (∃ rest, rest ≠ "" ∧ Accepted (source ++ rest)) ∧ Unfinished source tokens cause) := by
  obtain ⟨halt, hne, hparse, rfl⟩ := exists_halt_of_compile hlex h hlimits
  have hfull : halt.refusal.error ≠ .tooManyGroups := by
    intro hfull
    rw [hfull] at hlimits
    exact hlimits rfl
  obtain ⟨before, hbefore, hgroups, hend⟩ :=
    takesAll_of_parseFrom_error hparse (Nat.zero_le maxGroups)
  refine ⟨_, rfl, ?_⟩
  rcases hend with ⟨rfl, hfinish⟩ | ⟨t, after, n, rfl, htake⟩
  · exact .inr ⟨fun _ _ => not_firstStuck_of_takesAll hlex hbefore, exists_rest hlex hbefore,
      unfinished_of_finish hlex hne hbefore hfinish⟩
  · exact .inl ⟨before, t, firstStuck_of_take hlex hbefore hgroups htake hfull,
      blame_of_take hlex hbefore htake hfull⟩

/-- A pattern that has tokens and fails for no limit is malformed. If some token
cannot be continued to an accepted pattern, the error blames the first one: an
operator, a class that cannot be read, or a closing parenthesis where an operand
must come or no group is open. Otherwise the pattern goes on to an accepted one,
and the error says that it lacks an operand at its end or a closing parenthesis
for the innermost open group. Tokens are never left over. -/
theorem compile_blames_first_stuck (options : CompileOptions) (source : String)
    (tokens : List Token) (hlex : lex source = .ok tokens) :
    (∀ e, compile options source = .error e → e.code ≠ .resourceExhausted →
      ∃ cause, e = .malformed cause ∧
        (∀ before t, FirstStuck tokens before t → Blame before t cause) ∧
        ((∀ before t, ¬FirstStuck tokens before t) →
          (∃ rest, rest ≠ "" ∧ Accepted (source ++ rest)) ∧ Unfinished source tokens cause)) ∧
    ∀ offset remaining,
      compile options source ≠ .error (.malformed (.tokensLeftOver offset remaining)) := by
  refine ⟨fun e he hlimits => ?_, fun offset remaining hleft => ?_⟩
  · obtain ⟨cause, rfl, ⟨before, t, hstuck, hblame⟩ | ⟨hnone, hrest⟩⟩ :=
      compile_error_cases hlex he hlimits
    · refine ⟨cause, rfl, fun other u hother => ?_, fun hnone => absurd hstuck (hnone before t)⟩
      obtain ⟨rfl, rfl⟩ := hstuck.unique hother
      exact hblame
    · exact ⟨cause, rfl, fun before t hstuck => absurd hstuck (hnone before t), fun _ => hrest⟩
  · obtain ⟨cause, hcause, ⟨before, t, -, hblame⟩ | ⟨-, -, hunfinished⟩⟩ :=
      compile_error_cases hlex hleft nofun
    · cases hcause
      cases hblame
    · cases hcause
      cases hunfinished

def doubleStar : List Token :=
  [⟨"a", 0, .literal⟩, ⟨"*", 1, .operator (.quantify .zeroOrMore)⟩,
    ⟨"*", 2, .operator (.quantify .zeroOrMore)⟩]

def unclosedGroup : List Token := [⟨"(", 0, .groupOpen⟩, ⟨"a", 1, .literal⟩]

theorem compile_blames_first_stuck_doubleStar :
    (∃ before t, FirstStuck doubleStar before t ∧ Blame before t (.invalidOperator 2 "*")) ∧
    (∀ before t, ¬FirstStuck unclosedGroup before t) ∧
      Unfinished "(a" unclosedGroup (.mismatchedParentheses 0) := by
  have hstar : lex "a**" = .ok doubleStar := by cbv
  have hgroup : lex "(a" = .ok unclosedGroup := by cbv
  have hbyte : ∀ offset, Token.leaf? ⟨"a", offset, .literal⟩ = some (.byte 97) := fun offset =>
    leaf?_literal (by decide : isWordChar 'a' = true) offset
  have hstuck : FirstStuck doubleStar (doubleStar.take 2) doubleStar[2] := by
    have hcut : lex "a**" = .ok (doubleStar.take 2 ++ doubleStar[2] :: []) := hstar
    have htakes : TakesAll {} (doubleStar.take 2) _ :=
      .cons (.leaf (hbyte 0)) (.cons (.quantify rfl) .nil)
    refine firstStuck_of_take (n := 1) hcut htakes (by decide) rfl ?_
    decide
  have hnone : ∀ before t, ¬FirstStuck unclosedGroup before t := fun _ _ =>
    not_firstStuck_of_takesAll hgroup (.cons (.groupOpen rfl) (.cons (.leaf (hbyte 1)) .nil))
  refine ⟨⟨_, _, hstuck, ?_⟩, hnone, ?_⟩
  · have herror : compile {} "a**" = .error (.malformed (.invalidOperator 2 "*")) := by cbv
    obtain ⟨cause, hcause, hblame, -⟩ :=
      (compile_blames_first_stuck {} "a**" doubleStar hstar).1 _ herror (by decide)
    cases hcause
    exact hblame _ _ hstuck
  · have herror : compile {} "(a" = .error (.malformed (.mismatchedParentheses 0)) := by cbv
    obtain ⟨cause, hcause, -, hrest⟩ :=
      (compile_blames_first_stuck {} "(a" unclosedGroup hgroup).1 _ herror (by decide)
    cases hcause
    exact (hrest hnone).2

end

end PatternEngine

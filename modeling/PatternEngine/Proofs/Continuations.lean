import PatternEngine.Proofs.Prefixes

/-!
# What can still become a pattern

Whatever tokens the parser has taken, a letter and a closing parenthesis for
each open group complete a pattern. A pattern that starts with the same tokens
brings the parser into the same state. So the tokens that can be continued to a
pattern are exactly those that the parser takes when nothing limits how many
groups it opens.
-/

namespace PatternEngine

/-- A pattern of the grammar. It compiles where no limit is in the way. -/
def Accepted (source : String) : Prop := ∃ (tree : Tree) (groups : Nat), tree.Of source groups

/-- Tokens that read the same as the first tokens of an accepted pattern. -/
def Viable (ts : List Token) : Prop :=
  ∃ source tokens, Accepted source ∧ lex source = .ok tokens ∧
    ts.map Token.spelling <+: tokens.map Token.spelling

theorem Viable.of_initial {ts us : List Token} (h : Viable us) (hts : ts <+: us) : Viable ts := by
  obtain ⟨source, tokens, hsource, hlex, hus⟩ := h
  exact ⟨source, tokens, hsource, hlex, (hts.map Token.spelling).trans hus⟩

/-! ### Phases -/

def ParseState.isComplete (s : ParseState) : Bool :=
  match s.phase with
  | .operand => false
  | .term _ _ => true

theorem endsOperand_of_leaf? {t : Token} {e : Expr} (h : t.leaf? = some e) :
    t.endsOperand = true := by
  rcases kind_of_leaf? h with hkind | hkind | hkind <;> simp only [Token.endsOperand, hkind]

theorem Takes.isComplete {s next : ParseState} {t : Token} (h : Takes s t next) :
    next.isComplete = (t.endsOperand || (s.isComplete && t.isQuantifier)) := by
  cases h with
  | leaf he => rw [endsOperand_of_leaf? he]; rfl
  | groupOpen hk | concatenate hk | alternate hk | quantify hk | groupClose hk =>
    simp [Token.endsOperand, Token.isQuantifier, hk, ParseState.isComplete, Operator.isQuantifier]

theorem TakesAll.isComplete {s last : ParseState} {ts : List Token} (h : TakesAll s ts last) :
    last.isComplete = completes s.isComplete ts := by
  induction h with
  | nil => rfl
  | cons ht _ ih => rw [ih, ht.isComplete, completes]

/-! ### Completion -/

/-- Closing parentheses one after another. -/
def closers (offset : Nat) : Nat → List Token
  | 0 => []
  | k + 1 => ⟨String.singleton ')', offset, .groupClose⟩ :: closers (offset + 1) k

theorem lexemes_closers (offset k : Nat) :
    Lexemes offset (List.replicate k ')') (closers offset k) := by
  induction k generalizing offset with
  | zero => exact .nil
  | succ k ih => exact .single rfl (ih _)

theorem join_closers (complete : Bool) (offset k : Nat) :
    join complete (closers offset k) = closers offset k := by
  induction k generalizing complete offset with
  | zero => rfl
  | succ k ih => simp only [closers, join, Token.startsOperand, Bool.and_false, Bool.false_eq_true,
      if_false, ih]

theorem exists_takesAll_closers (n : Nat) (gs : List OpenGroup) (l : Level) (e : Expr) (q : Bool)
    (offset : Nat) : ∃ last f, TakesAll ⟨n, gs, l, .term e q⟩ (closers offset gs.length) last ∧
      ∀ stop, last.finish stop = .ok f := by
  induction gs generalizing l e q offset with
  | nil => exact ⟨_, l.close e, .nil, fun _ => rfl⟩
  | cons g gs ih =>
    obtain ⟨last, f, hlast, hfinish⟩ := ih g.outer (.group g.id (l.close e)) false (offset + 1)
    exact ⟨last, f, .cons (.groupClose rfl) hlast, hfinish⟩

/-- An operand is taken in every state, behind a concatenation if need be. -/
theorem TakesAll.leaf (s : ParseState) {t : Token} {e : Expr} (he : t.leaf? = some e) :
    ∃ l : Level, ∀ us last, TakesAll ⟨s.groups, s.enclosing, l, .term e false⟩ (join true us) last →
      TakesAll s (join s.isComplete (t :: us)) last := by
  obtain ⟨n, gs, l, phase⟩ := s
  have hends := endsOperand_of_leaf? he
  cases phase with
  | operand =>
    refine ⟨l, fun us last h => ?_⟩
    simp only [ParseState.isComplete, join, Bool.false_and, Bool.false_eq_true, if_false, hends,
      Bool.true_or]
    exact .cons (.leaf he) h
  | term last q =>
    have hstarts : t.startsOperand = true := by
      rcases kind_of_leaf? he with hkind | hkind | hkind <;> simp only [Token.startsOperand, hkind]
    refine ⟨{ l with terms := last :: l.terms }, fun us final h => ?_⟩
    simp only [ParseState.isComplete, join, Bool.true_and, hstarts, if_true, hends, Bool.true_or]
    exact .cons (.concatenate rfl) (.cons (.leaf he) h)

/-- A letter and the parentheses that close all groups. -/
def completion (offset depth : Nat) : List Token :=
  ⟨String.singleton 'a', offset, .literal⟩ :: closers (offset + 1) depth

theorem lexemes_completion (offset depth : Nat) :
    Lexemes offset ('a' :: List.replicate depth ')') (completion offset depth) := by
  have hletter : isWordChar 'a' = true := by decide
  have hwritten : TokenKind.literal.WrittenAs 'a' := hletter
  exact .single hwritten (lexemes_closers (offset + 1) depth)

theorem exists_takesAll_completion (s : ParseState) (offset : Nat) : ∃ last e,
    TakesAll s (join s.isComplete (completion offset s.enclosing.length)) last ∧
      ∀ stop, last.finish stop = .ok e := by
  have hletter : isWordChar 'a' = true := by decide
  obtain ⟨l, hleaf⟩ := TakesAll.leaf s (leaf?_literal hletter offset)
  obtain ⟨last, e, hlast, hfinish⟩ := exists_takesAll_closers s.groups s.enclosing l
    (.byte 'a'.toUInt8) false (offset + 1)
  refine ⟨last, e, hleaf _ last ?_, hfinish⟩
  rw [join_closers]
  exact hlast

/-- Characters whose tokens the parser takes are the start of an accepted
pattern. -/
theorem exists_accepted {cs : List Char} {ts : List Token} {s : ParseState}
    (hts : Lexemes 0 cs ts) (h : TakesAll {} (join false ts) s) : ∃ offset depth,
      Accepted (String.ofList (cs ++ 'a' :: List.replicate depth ')')) ∧
      lex (String.ofList (cs ++ 'a' :: List.replicate depth ')')) =
        .ok (join false ts ++ join (completes false ts) (completion offset depth)) := by
  have hcomplete : s.isComplete = completes false ts := by
    rw [h.isComplete]
    exact completes_join false ts
  obtain ⟨last, e, hlast, hfinish⟩ := exists_takesAll_completion s (0 + String.utf8Len cs)
  have hlexemes := lexemes_append.mpr ⟨cs, _, rfl, hts, lexemes_completion _ s.enclosing.length⟩
  have htakes := takesAll_append.mpr ⟨s, h, hcomplete ▸ hlast⟩
  rw [← join_append] at htakes
  refine ⟨0 + String.utf8Len cs, s.enclosing.length, ⟨some e, last.groups, ?_⟩,
    lex_eq_ok.mpr ⟨_, ?_, (join_append ..).symm⟩⟩
  · rw [Tree.Of, String.toList_ofList]
    exact spells_of_takesAll hlexemes htakes (hfinish 0)
  · rw [String.toList_ofList]
    exact hlexemes

/-- Tokens at the start of any text can be continued if the parser takes them. -/
theorem viable_of_takesAll {source : String} {before after : List Token} {s : ParseState}
    (hlex : lex source = .ok (before ++ after)) (h : TakesAll {} before s) : Viable before := by
  obtain ⟨ts, hts, hjoin⟩ := lex_eq_ok.mp hlex
  obtain ⟨firsts, others, rfl, hcut⟩ := exists_cut_of_join hjoin.symm
  obtain ⟨cs, ds, -, hfirsts, -⟩ := lexemes_append.mp hts
  rcases hcut with ⟨rfl, -⟩ | ⟨t, rest, rfl, -, -, -, hcomplete⟩
  · obtain ⟨offset, depth, haccepted, hlex⟩ := exists_accepted hfirsts h
    refine ⟨_, _, haccepted, hlex, ?_⟩
    rw [List.map_append]
    exact List.prefix_append ..
  · -- the letter of the completion stands behind a concatenation as well
    obtain ⟨middle, hmiddle, -⟩ := takesAll_append.mp h
    obtain ⟨stop, depth, haccepted, hlex⟩ := exists_accepted hfirsts hmiddle
    refine ⟨_, _, haccepted, hlex, ?_⟩
    rw [hcomplete, completion, join_true rfl, List.map_append, List.map_append,
      List.prefix_append_right_inj]
    exact List.cons_prefix_cons.mpr ⟨rfl, List.nil_prefix⟩

theorem Accepted.exists_takesAll {source : String} {tokens : List Token} (h : Accepted source)
    (hlex : lex source = .ok tokens) : ∃ last, TakesAll {} tokens last := by
  obtain ⟨tree, groups, htree⟩ := h
  obtain ⟨us, hus, rfl⟩ := lex_eq_ok.mp hlex
  cases tree with
  | none =>
    rw [htree.1] at hus
    cases hus
    exact ⟨_, .nil⟩
  | some e =>
    obtain ⟨ts, last, hts, -, hlast, -⟩ := takesAll_of_spells htree
    cases hts.unique hus
    exact ⟨last, hlast⟩

/-- The parser takes the next token of a text if it can be continued. -/
theorem takes_of_viable {source : String} {before after : List Token} {t : Token} {s : ParseState}
    (hlex : lex source = .ok (before ++ t :: after)) (hs : TakesAll {} before s)
    (h : Viable (before ++ [t])) : ∃ next, Takes s t next := by
  obtain ⟨other, tokens, haccepted, hother, hspelling⟩ := h
  rw [List.append_cons] at hlex
  -- the other pattern starts with the same tokens, so it leads to the same state
  obtain ⟨more, rfl⟩ := prefix_of_lex hlex hother hspelling
  obtain ⟨last, hlast⟩ := haccepted.exists_takesAll hother
  rw [List.append_assoc] at hlast
  obtain ⟨middle, hmiddle, hrest⟩ := takesAll_append.mp hlast
  cases hs.unique hmiddle
  cases hrest with
  | cons ht _ => exact ⟨_, ht⟩

/-- A text whose tokens are all taken is the start of a longer pattern. -/
theorem exists_rest {source : String} {tokens : List Token} {s : ParseState}
    (hlex : lex source = .ok tokens) (h : TakesAll {} tokens s) :
    ∃ rest, rest ≠ "" ∧ Accepted (source ++ rest) := by
  obtain ⟨ts, hts, rfl⟩ := lex_eq_ok.mp hlex
  obtain ⟨offset, depth, haccepted, -⟩ := exists_accepted hts h
  refine ⟨String.ofList ('a' :: List.replicate depth ')'), fun hnil => ?_, ?_⟩
  · have := congrArg String.toList hnil
    simp at this
  · rwa [String.ofList_append, String.ofList_toList] at haccepted

end PatternEngine

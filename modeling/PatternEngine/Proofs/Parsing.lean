import PatternEngine.Parse
import PatternEngine.Proofs.Lexing

/-!
# The parser and the grammar

What the parser holds at any time is the part of a tree that the characters
taken so far spell: each open level waits for the rest of its branch, and each
open group for the rest of its choice. A parse that finishes therefore has found
a tree of the grammar.
-/

namespace PatternEngine

theorem utf8Size_of_isWordChar {c : Char} (h : isWordChar c = true) : c.utf8Size = 1 := by
  rw [Char.utf8Size_eq_one_iff]
  simp only [isWordChar, Char.isAlphanum, Char.isAlpha, Char.isUpper, Char.isLower, Char.isDigit,
    Bool.or_eq_true, Bool.and_eq_true, decide_eq_true_eq, beq_iff_eq] at h
  rcases h with h | rfl
  · grind
  · decide

/-- A token that the parser takes where it may open any number of groups, with
the state before it and after it. -/
inductive Takes : ParseState → Token → ParseState → Prop where
  | leaf {n : Nat} {gs : List OpenGroup} {l : Level} {t : Token} {e : Expr}
      (h : t.leaf? = some e) : Takes ⟨n, gs, l, .operand⟩ t ⟨n, gs, l, .term e false⟩
  | groupOpen {n : Nat} {gs : List OpenGroup} {l : Level} {t : Token}
      (h : t.kind = .groupOpen) :
    Takes ⟨n, gs, l, .operand⟩ t ⟨n + 1, ⟨n + 1, t.offset, l⟩ :: gs, {}, .operand⟩
  | concatenate {n : Nat} {gs : List OpenGroup} {l : Level} {t : Token} {e : Expr} {q : Bool}
      (h : t.kind = .operator .concatenate) :
    Takes ⟨n, gs, l, .term e q⟩ t ⟨n, gs, { l with terms := e :: l.terms }, .operand⟩
  | alternate {n : Nat} {gs : List OpenGroup} {l : Level} {t : Token} {e : Expr} {q : Bool}
      (h : t.kind = .operator .alternate) :
    Takes ⟨n, gs, l, .term e q⟩ t ⟨n, gs, ⟨l.branch e :: l.branches, []⟩, .operand⟩
  | quantify {n : Nat} {gs : List OpenGroup} {l : Level} {t : Token} {e : Expr} {q : Quantifier}
      (h : t.kind = .operator (.quantify q)) :
    Takes ⟨n, gs, l, .term e false⟩ t ⟨n, gs, l, .term (.quantified q e) true⟩
  | groupClose {n : Nat} {g : OpenGroup} {gs : List OpenGroup} {l : Level} {t : Token} {e : Expr}
      {q : Bool} (h : t.kind = .groupClose) :
    Takes ⟨n, g :: gs, l, .term e q⟩ t ⟨n, gs, g.outer, .term (.group g.id (l.close e)) false⟩

theorem kind_of_leaf? {t : Token} {e : Expr} (h : t.leaf? = some e) :
    t.kind = .literal ∨ t.kind = .anyByte ∨ t.kind = .charClass := by
  unfold Token.leaf? at h
  split at h
  · exact .inl ‹_›
  · exact .inr (.inl ‹_›)
  · exact .inr (.inr ‹_›)
  · cases h

theorem leaf?_literal {c : Char} (h : isWordChar c = true) (offset : Nat) :
    Token.leaf? ⟨String.singleton c, offset, .literal⟩ = some (.byte c.toUInt8) := by
  have hsize := utf8Size_of_isWordChar h
  have hbyte : (String.singleton c).toUTF8.data[0]? = some c.toUInt8 := by
    rw [String.toUTF8, String.toByteArray_singleton, List.utf8Encode_singleton,
      String.utf8EncodeChar_eq_singleton hsize, List.data_toByteArray]
    rfl
  simp only [Token.leaf?, hbyte, Option.map_some]

theorem takes_of_take {s next : ParseState} {t : Token} {remaining : Nat}
    (h : s.take t remaining = .ok next) : Takes s t next := by
  obtain ⟨n, gs, l, phase⟩ := s
  cases phase with
  | operand =>
    simp only [ParseState.take, ParseState.takeOperand] at h
    split at h
    case h_4 hkind =>
      split at h
      · cases h
        exact .groupOpen hkind
      · cases h
    case h_1 | h_2 | h_3 =>
      split at h
      · rename_i e he
        cases h
        exact .leaf he
      · cases h
    all_goals cases h
  | term e q =>
    simp only [ParseState.take, ParseState.takeAfterTerm] at h
    split at h
    case h_1 hkind =>
      cases h
      exact .concatenate hkind
    case h_2 hkind =>
      cases h
      exact .alternate hkind
    case h_3 q' hkind =>
      split at h
      · cases h
      · rename_i hq
        rw [Bool.not_eq_true] at hq
        subst hq
        cases h
        exact .quantify hkind
    case h_4 hkind =>
      cases gs with
      | nil => cases h
      | cons g gs =>
        cases h
        exact .groupClose hkind
    case h_5 => cases h

theorem take_of_takes {s next : ParseState} {t : Token} (h : Takes s t next)
    (hn : next.groups ≤ maxGroups) (remaining : Nat) : s.take t remaining = .ok next := by
  cases h with
  | leaf h =>
    rcases kind_of_leaf? h with hkind | hkind | hkind <;>
      simp only [ParseState.take, ParseState.takeOperand, hkind, h]
  | groupOpen h =>
    simp only [ParseState.take, ParseState.takeOperand, h, if_pos (Nat.lt_of_succ_le hn)]
  | concatenate h | alternate h =>
    simp only [ParseState.take, ParseState.takeAfterTerm, h]
  | quantify h =>
    simp only [ParseState.take, ParseState.takeAfterTerm, h, Bool.false_eq_true, if_false]
  | groupClose h =>
    simp only [ParseState.take, ParseState.takeAfterTerm, h]

theorem Takes.groups_le {s next : ParseState} {t : Token} (h : Takes s t next) :
    s.groups ≤ next.groups := by
  cases h with
  | groupOpen => exact Nat.le_succ _
  | leaf | concatenate | alternate | quantify | groupClose => exact Nat.le_refl _

/-- The first group over the limit ends the parse. -/
theorem take_eq_error {s next : ParseState} {t : Token} (h : Takes s t next)
    (hs : s.groups ≤ maxGroups) (hn : maxGroups < next.groups) (remaining : Nat) :
    s.take t remaining = .error ⟨.tooManyGroups, false⟩ := by
  cases h with
  | groupOpen h =>
    have hfull : ¬ _ < maxGroups := Nat.not_lt.mpr (Nat.le_of_lt_succ hn)
    simp only [ParseState.take, ParseState.takeOperand, h, if_neg hfull]
  | leaf | concatenate | alternate | quantify | groupClose => exact absurd hn (Nat.not_lt.mpr hs)

inductive TakesAll : ParseState → List Token → ParseState → Prop where
  | nil {s : ParseState} : TakesAll s [] s
  | cons {s next last : ParseState} {t : Token} {ts : List Token} (h : Takes s t next)
      (hrest : TakesAll next ts last) : TakesAll s (t :: ts) last

theorem Takes.unique {s next other : ParseState} {t : Token} (h : Takes s t next)
    (hother : Takes s t other) : other = next := by
  cases h with
  | leaf he =>
    cases hother with
    | leaf he' => cases he.symm.trans he'; rfl
    | groupOpen hk =>
      rcases kind_of_leaf? he with hleaf | hleaf | hleaf <;> cases hleaf.symm.trans hk
  | groupOpen hk =>
    cases hother with
    | leaf he => rcases kind_of_leaf? he with hleaf | hleaf | hleaf <;> cases hleaf.symm.trans hk
    | groupOpen => rfl
  | concatenate hk =>
    cases hother with
    | concatenate => rfl
    | alternate hk' | quantify hk' | groupClose hk' => cases hk.symm.trans hk'
  | alternate hk =>
    cases hother with
    | alternate => rfl
    | concatenate hk' | quantify hk' | groupClose hk' => cases hk.symm.trans hk'
  | quantify hk =>
    cases hother with
    | quantify hk' => cases hk.symm.trans hk'; rfl
    | concatenate hk' | alternate hk' => cases hk.symm.trans hk'
    | groupClose hk' => cases hk.symm.trans hk'
  | groupClose hk =>
    cases hother with
    | groupClose => rfl
    | concatenate hk' | alternate hk' | quantify hk' => cases hk.symm.trans hk'

theorem takesAll_append {s last : ParseState} {ts us : List Token} :
    TakesAll s (ts ++ us) last ↔ ∃ middle, TakesAll s ts middle ∧ TakesAll middle us last := by
  constructor
  · intro h
    induction ts generalizing s with
    | nil => exact ⟨s, .nil, h⟩
    | cons t ts ih =>
      cases h with
      | cons ht hrest =>
        obtain ⟨middle, hts, hus⟩ := ih hrest
        exact ⟨middle, .cons ht hts, hus⟩
  · rintro ⟨middle, hts, hus⟩
    induction hts with
    | nil => exact hus
    | cons ht _ ih => exact .cons ht (ih hus)

theorem TakesAll.unique {s last other : ParseState} {ts : List Token} (h : TakesAll s ts last)
    (hother : TakesAll s ts other) : other = last := by
  induction h with
  | nil => cases hother; rfl
  | cons ht _ ih =>
    cases hother with
    | cons ht' hrest =>
      cases ht.unique ht'
      exact ih hrest

theorem takesAll_of_parseFrom {stop remaining : Nat} {s : ParseState} {ts : List Token}
    {parsed : Parsed} (h : parseFrom stop s remaining ts = .ok parsed) :
    ∃ last, TakesAll s ts last ∧ last.finish stop = .ok parsed.expr ∧
      last.groups = parsed.groups := by
  induction ts generalizing s remaining with
  | nil =>
    simp only [parseFrom] at h
    split at h
    · rename_i e he
      cases h
      exact ⟨s, .nil, he, rfl⟩
    · cases h
  | cons t ts ih =>
    simp only [parseFrom] at h
    split at h
    · rename_i next hnext
      obtain ⟨last, hlast, hfinish⟩ := ih h
      exact ⟨last, .cons (takes_of_take hnext) hlast, hfinish⟩
    · cases h

theorem TakesAll.groups_le {s last : ParseState} {ts : List Token} (h : TakesAll s ts last) :
    s.groups ≤ last.groups := by
  induction h with
  | nil => exact Nat.le_refl _
  | cons h _ ih => exact h.groups_le.trans ih

theorem parseFrom_of_takesAll {s last : ParseState} {ts : List Token} (h : TakesAll s ts last)
    (hlast : last.groups ≤ maxGroups) (stop remaining : Nat) {e : Expr}
    (hfinish : last.finish stop = .ok e) :
    parseFrom stop s remaining ts = .ok ⟨e, last.groups⟩ := by
  induction h generalizing remaining with
  | nil => simp only [parseFrom, hfinish]
  | cons h hrest ih =>
    simp only [parseFrom, take_of_takes h (hrest.groups_le.trans hlast)]
    exact ih hlast (remaining - 1) hfinish

theorem parseFrom_eq_error {s last : ParseState} {ts : List Token} (h : TakesAll s ts last)
    (hs : s.groups ≤ maxGroups) (hlast : maxGroups < last.groups) (stop remaining : Nat) :
    ∃ halt, parseFrom stop s remaining ts = .error halt ∧ halt.refusal.error = .tooManyGroups := by
  induction h generalizing remaining with
  | nil => exact absurd hlast (Nat.not_lt.mpr hs)
  | @cons s next last t ts h hrest ih =>
    -- the groups only grow, so the first state over the limit is where the parse ends
    by_cases hnext : next.groups ≤ maxGroups
    · simp only [parseFrom, take_of_takes h hnext]
      exact ih hnext hlast (remaining - 1)
    · simp only [parseFrom, take_eq_error h hs (Nat.lt_of_not_le hnext)]
      exact ⟨_, rfl, rfl⟩

theorem groups_le_of_take {s next : ParseState} {t : Token} {remaining : Nat}
    (h : s.take t remaining = .ok next) (hs : s.groups ≤ maxGroups) :
    next.groups ≤ maxGroups := by
  refine Nat.le_of_not_lt fun hlt => ?_
  rw [take_eq_error (takes_of_take h) hs hlt] at h
  cases h

theorem groups_le_of_parseFrom {stop remaining : Nat} {s : ParseState} {ts : List Token}
    {parsed : Parsed} (h : parseFrom stop s remaining ts = .ok parsed)
    (hs : s.groups ≤ maxGroups) : parsed.groups ≤ maxGroups := by
  obtain ⟨last, hlast, -, hgroups⟩ := takesAll_of_parseFrom h
  refine Nat.le_of_not_lt fun hlt => ?_
  obtain ⟨halt, herror, -⟩ := parseFrom_eq_error hlast hs (hgroups ▸ hlt) stop remaining
  exact nomatch h.symm.trans herror

/-- A parse that ends early has taken all tokens before the one that ends it, or
all there are. -/
theorem takesAll_of_parseFrom_error {stop remaining : Nat} {s : ParseState} {ts : List Token}
    {halt : Halt} (h : parseFrom stop s remaining ts = .error halt) (hs : s.groups ≤ maxGroups) :
    ∃ before, TakesAll s before halt.state ∧ halt.state.groups ≤ maxGroups ∧
      ((ts = before ∧ halt.state.finish stop = .error halt.refusal) ∨
        ∃ t after n, ts = before ++ t :: after ∧
          halt.state.take t n = .error halt.refusal) := by
  induction ts generalizing s remaining with
  | nil =>
    simp only [parseFrom] at h
    split at h
    · cases h
    · rename_i refusal hrefusal
      cases h
      exact ⟨[], .nil, hs, .inl ⟨rfl, hrefusal⟩⟩
  | cons t ts ih =>
    simp only [parseFrom] at h
    split at h
    · rename_i next hnext
      obtain ⟨before, hbefore, hgroups, hend⟩ := ih h (groups_le_of_take hnext hs)
      refine ⟨t :: before, .cons (takes_of_take hnext) hbefore, hgroups, ?_⟩
      rcases hend with ⟨rfl, hfinish⟩ | ⟨u, after, n, rfl, hu⟩
      · exact .inl ⟨rfl, hfinish⟩
      · exact .inr ⟨u, after, n, rfl, hu⟩
    · rename_i refusal hrefusal
      cases h
      exact ⟨[], .nil, hs, .inr ⟨t, ts, remaining, rfl, hrefusal⟩⟩

/-! ### What the parser holds was spelled -/

/-- A level after the characters `cs`: what completes its branch completes its
choice. -/
def Level.Awaits (l : Level) (n : Nat) (cs : List Char) (m : Nat) : Prop :=
  ∃ before branch k, cs = before ++ branch ∧
    (∀ ⦃ds e r⦄, Spells .choice k ds e r →
      Spells .choice n (before ++ ds) (l.branches.foldl (fun rest b => .alt b rest) e) r) ∧
    ∀ ⦃ds e r⦄, Spells .branch m ds e r → Spells .branch k (branch ++ ds) (l.branch e) r

namespace Level.Awaits

variable {l : Level} {n m k : Nat} {cs ds : List Char} {e : Expr}

theorem start (n : Nat) : Level.Awaits {} n [] n :=
  ⟨[], [], n, rfl, fun _ _ _ h => h, fun _ _ _ h => h⟩

theorem close (h : l.Awaits n cs m) (he : Spells .branch m ds e k) :
    Spells .choice n (cs ++ ds) (l.close e) k := by
  obtain ⟨before, branch, r, rfl, hchoice, hbranch⟩ := h
  rw [List.append_assoc]
  exact hchoice (.only (hbranch he))

theorem concatenate (h : l.Awaits n cs m) (he : Spells .term m ds e k) :
    Level.Awaits { l with terms := e :: l.terms } n (cs ++ ds) k := by
  obtain ⟨before, branch, r, rfl, hchoice, hbranch⟩ := h
  refine ⟨before, branch ++ ds, r, List.append_assoc .., hchoice, ?_⟩
  intro ds' f r' hf
  have := hbranch (.cat he hf)
  rw [List.append_assoc]
  exact this

theorem alternate (h : l.Awaits n cs m) (he : Spells .term m ds e k) :
    Level.Awaits ⟨l.branch e :: l.branches, []⟩ n (cs ++ ds ++ ['|']) k := by
  obtain ⟨before, branch, r, rfl, hchoice, hbranch⟩ := h
  refine ⟨_, [], k, (List.append_nil _).symm, ?_, fun _ _ _ h => h⟩
  intro ds' f r' hf
  have := hchoice (.alt (hbranch (.last he)) hf)
  simpa using this

end Level.Awaits

inductive Encloses : List OpenGroup → Nat → List Char → Prop where
  | nil : Encloses [] 0 []
  | cons {g : OpenGroup} {gs : List OpenGroup} {n m : Nat} {cs ds : List Char}
      (h : Encloses gs n cs) (hg : g.outer.Awaits n ds m) (hid : g.id = m + 1) :
    Encloses (g :: gs) (m + 1) (cs ++ ds ++ ['('])

/-- A state of the parser after the characters `cs`. -/
inductive Holds : ParseState → List Char → Prop where
  | operand {gs : List OpenGroup} {l : Level} {n m : Nat} {cs ds : List Char}
      (h : Encloses gs n cs) (hl : l.Awaits n ds m) : Holds ⟨m, gs, l, .operand⟩ (cs ++ ds)
  | term {gs : List OpenGroup} {l : Level} {n m k : Nat} {cs ds us : List Char} {e : Expr}
      {q : Bool} (h : Encloses gs n cs) (hl : l.Awaits n ds m)
      (he : Spells (if q then .term else .primary) m us e k) :
    Holds ⟨k, gs, l, .term e q⟩ (cs ++ ds ++ us)

theorem spells_term {q : Bool} {n m : Nat} {cs : List Char} {e : Expr}
    (h : Spells (if q then .term else .primary) n cs e m) : Spells .term n cs e m := by
  cases q with
  | true => exact h
  | false => exact .plain h

namespace Holds

variable {s next : ParseState} {cs : List Char}

theorem concatenate {t : Token} (h : Holds s cs) (ht : Takes s t next)
    (hkind : t.kind = .operator .concatenate) : Holds next cs := by
  cases ht with
  | concatenate =>
    cases h with
    | term h hl he =>
      rw [List.append_assoc]
      exact .operand h (hl.concatenate (spells_term he))
  | leaf he =>
    rcases kind_of_leaf? he with hleaf | hleaf | hleaf <;> rw [hleaf] at hkind <;> cases hkind
  | groupOpen hk | alternate hk | quantify hk | groupClose hk =>
    rw [hk] at hkind
    cases hkind

theorem single {kind : TokenKind} {c : Char} {offset : Nat} (h : Holds s cs)
    (hc : kind.WrittenAs c) (ht : Takes s ⟨String.singleton c, offset, kind⟩ next) :
    Holds next (cs ++ [c]) := by
  cases ht with
  | leaf he =>
    cases h with
    | operand h hl =>
      refine .term h hl (q := false) ?_
      rcases kind_of_leaf? he with hkind | hkind | hkind
      · obtain rfl : kind = .literal := hkind
        rw [leaf?_literal hc offset] at he
        cases he
        exact .byte hc
      · obtain rfl : kind = .anyByte := hkind
        obtain rfl : c = '.' := hc
        cases he
        exact .any
      · obtain rfl : kind = .charClass := hkind
        cases hc
  | @groupOpen n gs l _ hkind =>
    obtain rfl : kind = .groupOpen := hkind
    obtain rfl : c = '(' := hc
    cases h with
    | @operand _ _ _ _ cs ds h hl =>
      have hopen : Encloses (⟨n + 1, offset, l⟩ :: gs) (n + 1) (cs ++ ds ++ ['(']) :=
        .cons h hl rfl
      rw [← List.append_nil (cs ++ ds ++ ['('])]
      exact .operand hopen (.start _)
  | concatenate hkind =>
    obtain rfl : kind = .operator .concatenate := hkind
    cases hc
  | alternate hkind =>
    obtain rfl : kind = .operator .alternate := hkind
    obtain rfl : c = '|' := hc
    cases h with
    | term h hl he =>
      have hnext := Holds.operand h (hl.alternate (spells_term he))
      simp only [List.append_assoc] at hnext ⊢
      exact hnext
  | @quantify _ _ _ _ _ q hkind =>
    obtain rfl : kind = .operator (.quantify q) := hkind
    obtain rfl : c = q.symbol := hc
    cases h with
    | term h hl he =>
      rw [List.append_assoc]
      exact .term h hl (q := true) (.quantified q he)
  | groupClose hkind =>
    obtain rfl : kind = .groupClose := hkind
    obtain rfl : c = ')' := hc
    cases h with
    | term h hl he =>
      cases h with
      | cons h hg hid =>
        have hbody := Spells.group (hl.close (.last (spells_term he)))
        have hnext := Holds.term h hg (q := false) hbody
        rw [hid]
        simp only [List.append_assoc, List.cons_append, List.nil_append] at hnext ⊢
        exact hnext

theorem oneOf {body : List Char} {offset : Nat} (h : Holds s cs) (hbody : ']' ∉ body)
    (ht : Takes s ⟨String.ofList body, offset, .charClass⟩ next) :
    Holds next (cs ++ '[' :: (body ++ [']'])) := by
  cases ht with
  | leaf he =>
    cases h with
    | operand h hl =>
      obtain ⟨c, hc, rfl⟩ := Option.map_eq_some_iff.mp he
      exact .term h hl (q := false) (.oneOf hbody hc)
  | groupOpen hkind | concatenate hkind | alternate hkind | quantify hkind | groupClose hkind =>
    cases hkind

end Holds

theorem Holds.exists_takes {complete : Bool} {t : Token} {ts : List Token} {s last : ParseState}
    {cs : List Char} (hs : Holds s cs) (h : TakesAll s (join complete (t :: ts)) last) :
    ∃ middle next, Holds middle cs ∧ Takes middle t next ∧
      TakesAll next (join (t.endsOperand || (complete && t.isQuantifier)) ts) last := by
  simp only [join] at h
  split at h
  · cases h with
    | cons hconcat h =>
      cases h with
      | cons ht h => exact ⟨_, _, hs.concatenate hconcat rfl, ht, h⟩
  · cases h with
    | cons ht h => exact ⟨_, _, hs, ht, h⟩

theorem Holds.lexemes {offset : Nat} {cs before : List Char} {ts : List Token}
    (hts : Lexemes offset cs ts) {complete : Bool} {s last : ParseState} (hs : Holds s before)
    (h : TakesAll s (join complete ts) last) : Holds last (before ++ cs) := by
  induction hts generalizing complete s before with
  | nil =>
    cases h
    rw [List.append_nil]
    exact hs
  | single hkind _ ih =>
    obtain ⟨middle, next, hmiddle, ht, hrest⟩ := hs.exists_takes h
    have hlast := ih (hmiddle.single hkind ht) hrest
    rw [List.append_assoc] at hlast
    exact hlast
  | oneOf hbody _ ih =>
    obtain ⟨middle, next, hmiddle, ht, hrest⟩ := hs.exists_takes h
    have hlast := ih (hmiddle.oneOf hbody ht) hrest
    simp only [List.append_assoc, List.cons_append, List.nil_append] at hlast
    exact hlast

/-- What the parser holds at the end is spelled by the characters of all tokens. -/
theorem spells_of_takesAll {cs : List Char} {ts : List Token} (hts : Lexemes 0 cs ts)
    {last : ParseState} (hlast : TakesAll {} (join false ts) last) {stop : Nat} {e : Expr}
    (hfinish : last.finish stop = .ok e) : Spells .choice 0 cs e last.groups := by
  have hstart : Holds {} [] := .operand .nil (.start 0)
  have hholds := hstart.lexemes hts hlast
  cases hholds with
  | operand => cases hfinish
  | term henclosed hl he =>
    cases henclosed with
    | nil =>
      cases hfinish
      exact hl.close (.last (spells_term he))
    | cons => cases hfinish

/-- The tree that the parser finds is one that the grammar gives the pattern. -/
theorem spells_of_parse {cs : List Char} {ts : List Token} (hts : Lexemes 0 cs ts)
    {parsed : Parsed} (h : parse (join false ts) = .ok parsed) :
    Spells .choice 0 cs parsed.expr parsed.groups ∧ parsed.groups ≤ maxGroups := by
  obtain ⟨last, hlast, hfinish, hgroups⟩ := takesAll_of_parseFrom h
  refine ⟨?_, groups_le_of_parseFrom h (Nat.zero_le _)⟩
  rw [← hgroups]
  exact spells_of_takesAll hts hlast hfinish

end PatternEngine

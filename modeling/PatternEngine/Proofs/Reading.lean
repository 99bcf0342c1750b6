import PatternEngine.Proofs.Parsing

/-!
# The parser finds what is spelled

The tokens of a spelled expression begin with a token that starts an operand,
and the parser takes them at every level it may be in. So it finishes on every
pattern of the grammar that does not open too many groups, and since it can
finish with one tree only, the tree of such a pattern is unique.
-/

namespace PatternEngine

def Shape.Built (l : Level) (e : Expr) (built : Level) (last : Expr) (q : Bool) : Shape → Prop
  | .primary => built = l ∧ last = e ∧ q = false
  | .term => built = l ∧ last = e
  | .branch => built.branches = l.branches ∧ built.branch last = l.branch e
  | .choice => l.terms = [] → built.close last = l.close e

/-- Tokens that stand for an expression between two byte offsets: the characters
spell them, and the parser takes them where an operand must start. -/
structure Shape.Read (shape : Shape) (n : Nat) (cs : List Char) (e : Expr) (m offset stop : Nat)
    (ts : List Token) : Prop where
  starts : ∃ t rest, ts = t :: rest ∧ t.startsOperand = true
  lexemes : ∀ {ds us}, Lexemes stop ds us → Lexemes offset (cs ++ ds) (ts ++ us)
  groups : m = n + ts.countP (·.kind = .groupOpen)
  takes : ∀ gs l, ∃ built last q, shape.Built l e built last q ∧
    ∀ us final, TakesAll ⟨m, gs, built, .term last q⟩ (join true us) final →
      TakesAll ⟨n, gs, l, .operand⟩ (join false (ts ++ us)) final

theorem isQuantifier_of_startsOperand {t : Token} (h : t.startsOperand = true) :
    t.isQuantifier = false := by
  unfold Token.startsOperand at h
  split at h <;> simp_all [Token.isQuantifier]

theorem join_true {t : Token} (h : t.startsOperand = true) (ts : List Token) :
    join true (t :: ts) = .concatenation t.offset :: join false (t :: ts) := by
  simp [join, h, isQuantifier_of_startsOperand h]

namespace Shape.Read

variable {n m k offset stop stop' : Nat} {cs ds : List Char} {e f : Expr} {ts us : List Token}

theorem leaf {t : Token} (hstarts : t.kind ≠ .groupOpen) (he : t.leaf? = some e)
    (hlexemes : ∀ {ds us}, Lexemes stop ds us → Lexemes t.offset (cs ++ ds) (t :: us)) :
    Shape.primary.Read n cs e n t.offset stop [t] where
  starts := by
    refine ⟨t, [], rfl, ?_⟩
    rcases kind_of_leaf? he with h | h | h <;> simp [Token.startsOperand, h]
  lexemes := hlexemes
  groups := by simp [hstarts]
  takes := by
    intro gs l
    refine ⟨l, e, false, ⟨rfl, rfl, rfl⟩, ?_⟩
    intro us final hrest
    have hjoin : join false ([t] ++ us) = t :: join true us := by
      rcases kind_of_leaf? he with h | h | h <;> simp [join, Token.endsOperand, h]
    rw [hjoin]
    exact .cons (.leaf he) hrest

theorem group (h : Shape.choice.Read (n + 1) cs e m (offset + 1) stop ts) :
    Shape.primary.Read n ('(' :: (cs ++ [')'])) (.group (n + 1) e) m offset (stop + 1)
      (⟨String.singleton '(', offset, .groupOpen⟩ ::
        (ts ++ [⟨String.singleton ')', stop, .groupClose⟩])) where
  starts := ⟨_, _, rfl, rfl⟩
  lexemes := by
    intro ds us hrest
    have hclose : Lexemes stop (')' :: ds) (⟨String.singleton ')', stop, .groupClose⟩ :: us) :=
      .single rfl hrest
    simp only [List.cons_append, List.append_assoc, List.nil_append]
    exact .single rfl (h.lexemes hclose)
  groups := by
    rw [h.groups, List.countP_cons_of_pos rfl, List.countP_append, List.countP_singleton]
    simp only [reduceCtorEq, decide_false, Bool.false_eq_true, if_false]
    omega
  takes := by
    intro gs l
    obtain ⟨built, last, q, hbuilt, htakes⟩ := h.takes (⟨n + 1, offset, l⟩ :: gs) {}
    refine ⟨l, .group (n + 1) e, false, ⟨rfl, rfl, rfl⟩, ?_⟩
    intro us final hrest
    have hclose : TakesAll ⟨m, ⟨n + 1, offset, l⟩ :: gs, built, .term last q⟩
        (join true (⟨String.singleton ')', stop, .groupClose⟩ :: us)) final := by
      refine .cons (.groupClose rfl) ?_
      rw [hbuilt rfl]
      exact hrest
    simp only [List.cons_append, List.append_assoc, List.nil_append]
    exact .cons (.groupOpen rfl) (htakes _ _ hclose)

theorem quantified (q : Quantifier) (h : Shape.primary.Read n cs e m offset stop ts) :
    Shape.term.Read n (cs ++ [q.symbol]) (.quantified q e) m offset (stop + q.symbol.utf8Size)
      (ts ++ [⟨String.singleton q.symbol, stop, .operator (.quantify q)⟩]) where
  starts := by
    obtain ⟨t, rest, rfl, ht⟩ := h.starts
    exact ⟨t, _, rfl, ht⟩
  lexemes := by
    intro ds us hrest
    have hsymbol : Lexemes stop (q.symbol :: ds)
        (⟨String.singleton q.symbol, stop, .operator (.quantify q)⟩ :: us) := .single rfl hrest
    simp only [List.append_assoc, List.cons_append, List.nil_append]
    exact h.lexemes hsymbol
  groups := by
    rw [h.groups, List.countP_append]
    rfl
  takes := by
    intro gs l
    obtain ⟨built, last, quantified, ⟨rfl, rfl, rfl⟩, htakes⟩ := h.takes gs l
    refine ⟨built, .quantified q last, true, ⟨rfl, rfl⟩, ?_⟩
    intro us final hrest
    have hsymbol : TakesAll ⟨m, gs, built, .term last false⟩
        (join true (⟨String.singleton q.symbol, stop, .operator (.quantify q)⟩ :: us)) final :=
      .cons (.quantify rfl) hrest
    simp only [List.append_assoc, List.cons_append, List.nil_append]
    exact htakes _ _ hsymbol

theorem cat (he : Shape.term.Read n cs e m offset stop ts)
    (hf : Shape.branch.Read m ds f k stop stop' us) :
    Shape.branch.Read n (cs ++ ds) (.cat e f) k offset stop' (ts ++ us) where
  starts := by
    obtain ⟨t, rest, rfl, ht⟩ := he.starts
    exact ⟨t, _, rfl, ht⟩
  lexemes := by
    intro ds' us' hrest
    rw [List.append_assoc, List.append_assoc]
    exact he.lexemes (hf.lexemes hrest)
  groups := by rw [hf.groups, he.groups, List.countP_append, Nat.add_assoc]
  takes := by
    intro gs l
    obtain ⟨built, last, q, ⟨rfl, rfl⟩, htakes⟩ := he.takes gs l
    obtain ⟨built', last', q', ⟨hbranches, hbranch⟩, htakes'⟩ :=
      hf.takes gs { built with terms := last :: built.terms }
    refine ⟨built', last', q', ⟨hbranches, hbranch⟩, ?_⟩
    intro vs final hrest
    have hmore : TakesAll ⟨m, gs, built, .term last q⟩ (join true (us ++ vs)) final := by
      have hrest' := htakes' vs final hrest
      obtain ⟨u, rest, rfl, hu⟩ := hf.starts
      rw [List.cons_append, join_true hu]
      exact .cons (.concatenate rfl) hrest'
    rw [List.append_assoc]
    exact htakes _ _ hmore

theorem alt (he : Shape.branch.Read n cs e m offset stop ts)
    (hf : Shape.choice.Read m ds f k (stop + 1) stop' us) :
    Shape.choice.Read n (cs ++ '|' :: ds) (.alt e f) k offset stop'
      (ts ++ ⟨String.singleton '|', stop, .operator .alternate⟩ :: us) where
  starts := by
    obtain ⟨t, rest, rfl, ht⟩ := he.starts
    exact ⟨t, _, rfl, ht⟩
  lexemes := by
    intro ds' us' hrest
    have hbar : Lexemes stop ('|' :: (ds ++ ds'))
        (⟨String.singleton '|', stop, .operator .alternate⟩ :: (us ++ us')) :=
      .single rfl (hf.lexemes hrest)
    simp only [List.append_assoc, List.cons_append]
    exact he.lexemes hbar
  groups := by
    rw [hf.groups, he.groups, List.countP_append, Nat.add_assoc]
    rfl
  takes := by
    intro gs l
    obtain ⟨built, last, q, ⟨hbranches, hbranch⟩, htakes⟩ := he.takes gs l
    obtain ⟨built', last', q', hclose, htakes'⟩ :=
      hf.takes gs ⟨built.branch last :: built.branches, []⟩
    refine ⟨built', last', q', ?_, ?_⟩
    · intro hterms
      rw [hclose rfl, hbranches, hbranch]
      simp only [Level.close, Level.branch, hterms, List.foldl_cons, List.foldl_nil]
    · intro vs final hrest
      have hmore : TakesAll ⟨m, gs, built, .term last q⟩
          (join true (⟨String.singleton '|', stop, .operator .alternate⟩ :: (us ++ vs))) final :=
        .cons (.alternate rfl) (htakes' _ _ hrest)
      simp only [List.append_assoc, List.cons_append]
      exact htakes _ _ hmore

theorem mono {shape shape' : Shape} (h : shape.Read n cs e m offset stop ts)
    (hbuilt : ∀ l built last q, shape.Built l e built last q → shape'.Built l e built last q) :
    shape'.Read n cs e m offset stop ts where
  starts := h.starts
  lexemes := h.lexemes
  groups := h.groups
  takes := by
    intro gs l
    obtain ⟨built, last, q, hb, htakes⟩ := h.takes gs l
    exact ⟨built, last, q, hbuilt l built last q hb, htakes⟩

end Shape.Read

theorem Spells.exists_read {shape : Shape} {n m : Nat} {cs : List Char} {e : Expr}
    (h : Spells shape n cs e m) (offset : Nat) :
    ∃ stop ts, shape.Read n cs e m offset stop ts := by
  induction h generalizing offset with
  | @byte n c hc =>
    exact ⟨_, _, .leaf (t := ⟨_, offset, .literal⟩) (by simp) (leaf?_literal hc offset)
      (.single hc)⟩
  | any =>
    exact ⟨_, _, .leaf (t := ⟨String.singleton '.', offset, .anyByte⟩) (by simp) rfl (.single rfl)⟩
  | @oneOf n body c hbody hc =>
    let t : Token := ⟨String.ofList body, offset, .charClass⟩
    refine ⟨t.stop, [t], .leaf (t := t) (by simp [t]) ?_ ?_⟩
    · simp only [t, Token.leaf?, hc, Option.map_some]
    · intro ds us hrest
      simp only [List.append_assoc, List.cons_append, List.nil_append]
      exact .oneOf hbody hrest
  | group _ ih =>
    obtain ⟨stop, ts, h⟩ := ih (offset + 1)
    exact ⟨_, _, h.group⟩
  | plain _ ih =>
    obtain ⟨stop, ts, h⟩ := ih offset
    exact ⟨stop, ts, h.mono fun _ _ _ _ hb => ⟨hb.1, hb.2.1⟩⟩
  | quantified q _ ih =>
    obtain ⟨stop, ts, h⟩ := ih offset
    exact ⟨_, _, h.quantified q⟩
  | last _ ih =>
    obtain ⟨stop, ts, h⟩ := ih offset
    refine ⟨stop, ts, h.mono ?_⟩
    rintro l built last q ⟨rfl, rfl⟩
    exact ⟨rfl, rfl⟩
  | cat _ _ ih₁ ih₂ =>
    obtain ⟨middle, ts, h₁⟩ := ih₁ offset
    obtain ⟨stop, us, h₂⟩ := ih₂ middle
    exact ⟨_, _, h₁.cat h₂⟩
  | only _ ih =>
    obtain ⟨stop, ts, h⟩ := ih offset
    refine ⟨stop, ts, h.mono ?_⟩
    rintro l built last q ⟨hbranches, hbranch⟩ -
    rw [Level.close, Level.close, hbranches, hbranch]
  | alt _ _ ih₁ ih₂ =>
    obtain ⟨middle, ts, h₁⟩ := ih₁ offset
    obtain ⟨stop, us, h₂⟩ := ih₂ (middle + 1)
    exact ⟨_, _, h₁.alt h₂⟩

theorem takesAll_of_spells {cs : List Char} {e : Expr} {m : Nat} (h : Spells .choice 0 cs e m) :
    ∃ ts last, Lexemes 0 cs ts ∧ m = ts.countP (·.kind = .groupOpen) ∧
      TakesAll {} (join false ts) last ∧ last.groups = m ∧ ∀ stop, last.finish stop = .ok e := by
  obtain ⟨stop, ts, hread⟩ := h.exists_read 0
  have hlexemes := hread.lexemes Lexemes.nil
  rw [List.append_nil, List.append_nil] at hlexemes
  obtain ⟨built, last, q, hbuilt, htakes⟩ := hread.takes [] {}
  have hall := htakes [] _ .nil
  rw [List.append_nil] at hall
  refine ⟨ts, _, hlexemes, by rw [hread.groups, Nat.zero_add], hall, rfl, fun stop => ?_⟩
  simp only [ParseState.finish]
  rw [hbuilt rfl]
  rfl

theorem parse_of_spells {cs : List Char} {e : Expr} {m : Nat} (h : Spells .choice 0 cs e m) :
    ∃ ts, Lexemes 0 cs ts ∧ m = ts.countP (·.kind = .groupOpen) ∧
      (m ≤ maxGroups → parse (join false ts) = .ok ⟨e, m⟩) ∧
      (maxGroups < m → ∃ halt, parse (join false ts) = .error halt ∧
        halt.refusal.error = .tooManyGroups) := by
  obtain ⟨ts, last, hts, hcount, hlast, rfl, hfinish⟩ := takesAll_of_spells h
  exact ⟨ts, hts, hcount, fun hm => parseFrom_of_takesAll hlast hm _ _ (hfinish _),
    fun hm => parseFrom_eq_error hlast (Nat.zero_le _) hm _ _⟩

theorem Spells.unique {cs : List Char} {e f : Expr} {m k : Nat} (he : Spells .choice 0 cs e m)
    (hm : m ≤ maxGroups) (hf : Spells .choice 0 cs f k) : f = e ∧ k = m := by
  obtain ⟨ts, hts, hcount, hparse, -⟩ := parse_of_spells he
  obtain ⟨us, hus, hcount', hparse', -⟩ := parse_of_spells hf
  obtain rfl := hts.unique hus
  obtain rfl : k = m := hcount'.trans hcount.symm
  have heq := (hparse' hm).symm.trans (hparse hm)
  cases heq
  exact ⟨rfl, rfl⟩

end PatternEngine

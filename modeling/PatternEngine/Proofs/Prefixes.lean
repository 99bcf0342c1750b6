import PatternEngine.Proofs.Reading

/-!
# First parts of a pattern

The tokens of a pattern can be cut in two, and the characters with them. Where
the cut is not between a concatenation and its second operand, each part is
joined by itself, given whether an operand is complete at the cut. Tokens abut:
each starts where the one before it stops. So the kinds and texts of the tokens
of a pattern determine their offsets.
-/

namespace PatternEngine

/-! ### Characters -/

theorem stop_single {kind : TokenKind} {c : Char} (h : kind.WrittenAs c) (offset : Nat) :
    Token.stop ⟨String.singleton c, offset, kind⟩ = offset + c.utf8Size := by
  unfold Token.stop
  split
  · rename_i hkind
    obtain rfl : kind = .charClass := hkind
    cases h
  · rw [String.utf8ByteSize_singleton]

/-- Tokens are cut where their characters are. -/
theorem lexemes_append {offset : Nat} {cs : List Char} {ts us : List Token} :
    Lexemes offset cs (ts ++ us) ↔ ∃ before after, cs = before ++ after ∧
      Lexemes offset before ts ∧ Lexemes (offset + String.utf8Len before) after us := by
  constructor
  · intro h
    induction ts generalizing offset cs with
    | nil => exact ⟨[], cs, rfl, .nil, h⟩
    | cons t ts ih =>
      cases h with
      | single hkind hrest =>
        obtain ⟨before, after, rfl, hts, hus⟩ := ih hrest
        refine ⟨_ :: before, after, rfl, .single hkind hts, ?_⟩
        rwa [String.utf8Len_cons, Nat.add_comm _ (Char.utf8Size _), ← Nat.add_assoc]
      | @oneOf _ body _ _ hbody hrest =>
        obtain ⟨before, after, rfl, hts, hus⟩ := ih hrest
        refine ⟨'[' :: (body ++ ']' :: before), after, by simp, .oneOf hbody hts, ?_⟩
        rwa [List.append_cons body, ← List.cons_append, String.utf8Len_append, ← Nat.add_assoc,
          ← stop_charClass]
  · rintro ⟨before, after, rfl, hts, hus⟩
    induction hts with
    | nil => exact hus
    | single hkind _ ih =>
      rw [String.utf8Len_cons, Nat.add_comm _ (Char.utf8Size _), ← Nat.add_assoc] at hus
      exact .single hkind (ih hus)
    | @oneOf offset body cs _ hbody _ ih =>
      rw [List.append_cons body, ← List.cons_append, String.utf8Len_append, ← Nat.add_assoc,
        ← stop_charClass] at hus
      rw [List.cons_append, List.append_assoc, List.cons_append]
      exact .oneOf hbody (ih hus)

/-- The last token of a pattern stops where the pattern does, and it is of the
kind that the last character is or closes a class. -/
theorem Lexemes.last {offset : Nat} {cs : List Char} {ts : List Token} {t : Token}
    (h : Lexemes offset cs (ts ++ [t])) : t.stop = offset + String.utf8Len cs ∧
      ∃ c, cs.getLast? = some c ∧ (t.kind.WrittenAs c ∨ t.kind = .charClass ∧ c = ']') := by
  obtain ⟨before, after, rfl, -, hlast⟩ := lexemes_append.mp h
  rw [String.utf8Len_append, ← Nat.add_assoc]
  cases hlast with
  | @single _ kind c cs _ hkind hrest =>
    obtain rfl := hrest.eq_nil
    refine ⟨?_, c, List.getLast?_concat .., .inl hkind⟩
    rw [stop_single hkind, String.utf8Len_cons, String.utf8Len_nil, Nat.zero_add]
  | @oneOf _ body cs _ hbody hrest =>
    obtain rfl := hrest.eq_nil
    refine ⟨stop_charClass _ _, ']', ?_, .inr ⟨rfl, rfl⟩⟩
    rw [← List.cons_append, ← List.append_assoc]
    exact List.getLast?_concat ..

/-! ### Joined tokens -/

/-- Whether an operand is complete after tokens, given whether one was before. -/
def completes : Bool → List Token → Bool
  | complete, [] => complete
  | complete, t :: rest => completes (t.endsOperand || (complete && t.isQuantifier)) rest

theorem join_append (complete : Bool) (ts us : List Token) :
    join complete (ts ++ us) = join complete ts ++ join (completes complete ts) us := by
  induction ts generalizing complete with
  | nil => rfl
  | cons t ts ih =>
    simp only [List.cons_append, join, completes, ih]
    split <;> rfl

theorem completes_join (complete : Bool) (ts : List Token) :
    completes complete (join complete ts) = completes complete ts := by
  induction ts generalizing complete with
  | nil => rfl
  | cons t ts ih =>
    simp only [join]
    split
    · rename_i hstarts
      rw [Bool.and_eq_true] at hstarts
      have hq := isQuantifier_of_startsOperand hstarts.2
      simp only [completes, hq, Bool.and_false, Bool.or_false, ih]
    · exact ih _

/-- Joined tokens are cut between two tokens of the pattern or between a
concatenation and the operand behind it. -/
theorem exists_cut_of_join {complete : Bool} {ts before after : List Token}
    (h : join complete ts = before ++ after) : ∃ firsts others, ts = firsts ++ others ∧
      ((before = join complete firsts ∧ after = join (completes complete firsts) others) ∨
        ∃ t rest, before = join complete firsts ++ [.concatenation t.offset] ∧ after = t :: rest ∧
          t ∈ others ∧ t.startsOperand = true ∧ completes complete firsts = true) := by
  induction ts generalizing complete before with
  | nil =>
    obtain ⟨rfl, rfl⟩ := List.append_eq_nil_iff.mp h.symm
    exact ⟨[], [], rfl, .inl ⟨rfl, rfl⟩⟩
  | cons t ts ih =>
    cases before with
    | nil => exact ⟨[], t :: ts, rfl, .inl ⟨rfl, h.symm⟩⟩
    | cons u before =>
      simp only [join] at h
      -- with a concatenation in front of the token a cut may fall between the two
      split at h
      · rename_i hstarts
        obtain ⟨rfl, hafter⟩ := List.cons.inj h
        cases before with
        | nil =>
          obtain ⟨hcomplete, hoperand⟩ := Bool.and_eq_true_iff.mp hstarts
          exact ⟨[], t :: ts, rfl,
            .inr ⟨t, _, rfl, hafter.symm, List.mem_cons_self .., hoperand, hcomplete⟩⟩
        | cons v before =>
          obtain ⟨rfl, hrest⟩ := List.cons.inj hafter
          obtain ⟨firsts, others, rfl, hcut⟩ := ih hrest
          refine ⟨t :: firsts, others, rfl, ?_⟩
          simp only [join, if_pos hstarts, completes, List.cons_append, List.cons.injEq, true_and]
          exact hcut
      · rename_i hstarts
        obtain ⟨rfl, hrest⟩ := List.cons.inj h
        obtain ⟨firsts, others, rfl, hcut⟩ := ih hrest
        refine ⟨t :: firsts, others, rfl, ?_⟩
        simp only [join, if_neg hstarts, completes, List.cons_append, List.cons.injEq, true_and]
        exact hcut

theorem startsOperand_of_join {ts after : List Token} {t : Token}
    (h : t :: after = join true ts) : t.startsOperand = false := by
  cases ts with
  | nil => cases h
  | cons u us =>
    simp only [join, Bool.true_and] at h
    split at h
    · cases h
      rfl
    · rename_i hstarts
      cases h
      exact Bool.eq_false_iff.mpr hstarts

theorem mem_join {complete : Bool} {ts : List Token} {t : Token} (h : t ∈ join complete ts) :
    t ∈ ts ∨ t.kind = .operator .concatenate := by
  induction ts generalizing complete with
  | nil => cases h
  | cons u us ih =>
    have later : t ∈ u :: join (u.endsOperand || (complete && u.isQuantifier)) us →
        t ∈ u :: us ∨ t.kind = .operator .concatenate := by
      intro h
      rcases List.mem_cons.mp h with rfl | h
      · exact .inl (List.mem_cons_self ..)
      · exact (ih h).imp_left (List.mem_cons_of_mem u)
    simp only [join] at h
    split at h
    · rcases List.mem_cons.mp h with rfl | h
      · exact .inr rfl
      · exact later h
    · exact later h

theorem Lexemes.kind_of_mem {offset : Nat} {cs : List Char} {ts : List Token} {t : Token}
    (h : Lexemes offset cs ts) (ht : t ∈ ts) :
    t.kind ≠ .invalid ∧ (t.kind = .literal → ∃ e, t.leaf? = some e) := by
  induction h with
  | nil => cases ht
  | @single offset kind c _ _ hkind _ ih =>
    rcases List.mem_cons.mp ht with rfl | ht
    · refine ⟨fun hinvalid => ?_, fun hliteral => ?_⟩
      · obtain rfl : kind = .invalid := hinvalid
        cases hkind
      · obtain rfl : kind = .literal := hliteral
        exact ⟨_, leaf?_literal hkind offset⟩
    · exact ih ht
  | oneOf _ _ ih =>
    rcases List.mem_cons.mp ht with rfl | ht
    · exact ⟨nofun, nofun⟩
    · exact ih ht

/-- No token of a pattern is invalid, and a character stands for a byte. -/
theorem kind_of_mem_lex {source : String} {tokens : List Token} {t : Token}
    (hlex : lex source = .ok tokens) (ht : t ∈ tokens) :
    t.kind ≠ .invalid ∧ (t.kind = .literal → ∃ e, t.leaf? = some e) := by
  obtain ⟨ts, hts, rfl⟩ := lex_eq_ok.mp hlex
  rcases mem_join ht with hmem | hkind
  · exact hts.kind_of_mem hmem
  · rw [hkind]
    exact ⟨nofun, nofun⟩

/-! ### Offsets -/

/-- What a token is and reads, wherever it stands. -/
def Token.spelling (t : Token) : TokenKind × String := (t.kind, t.text)

theorem Token.eq_of_spelling {t u : Token} (h : t.spelling = u.spelling)
    (hoffset : t.offset = u.offset) : t = u := by
  cases t
  cases u
  simp_all [spelling]

/-- Each token starts where the one before it stops. -/
def Abut : Nat → List Token → Prop
  | _, [] => True
  | offset, t :: rest => t.offset = offset ∧ Abut t.stop rest

theorem Lexemes.abut {offset : Nat} {cs : List Char} {ts : List Token} (h : Lexemes offset cs ts)
    (complete : Bool) : Abut offset (join complete ts) := by
  have joined : ∀ (t : Token) (us : List Token) (complete : Bool),
      (∀ complete, Abut t.stop (join complete us)) → Abut t.offset (join complete (t :: us)) := by
    intro t us complete hus
    simp only [join]
    split
    · exact ⟨rfl, rfl, hus _⟩
    · exact ⟨rfl, hus _⟩
  induction h generalizing complete with
  | nil => trivial
  | single hkind _ ih => exact joined _ _ _ (stop_single hkind _ ▸ ih)
  | oneOf _ _ ih => exact joined _ _ _ ih

theorem Abut.of_append {offset : Nat} {ts us : List Token} (h : Abut offset (ts ++ us)) :
    Abut offset ts := by
  induction ts generalizing offset with
  | nil => trivial
  | cons t ts ih => exact ⟨h.1, ih h.2⟩

theorem Abut.prefix_of_spellings {offset : Nat} {ts us : List Token} (hts : Abut offset ts)
    (hus : Abut offset us) (h : ts.map Token.spelling <+: us.map Token.spelling) : ts <+: us := by
  induction ts generalizing offset us with
  | nil => exact List.nil_prefix
  | cons t ts ih =>
    cases us with
    | nil => exact absurd h (by simp)
    | cons u us =>
      rw [List.map_cons, List.map_cons, List.cons_prefix_cons] at h
      have heq : t = u := Token.eq_of_spelling h.1 (hts.1.trans hus.1.symm)
      subst heq
      exact List.cons_prefix_cons.mpr ⟨rfl, ih hts.2 hus.2 h.2⟩

/-- Tokens at the start of a pattern with which some other pattern starts are
tokens of that pattern, offsets included. -/
theorem prefix_of_lex {source other : String} {before after tokens : List Token}
    (hlex : lex source = .ok (before ++ after)) (hother : lex other = .ok tokens)
    (h : before.map Token.spelling <+: tokens.map Token.spelling) : before <+: tokens := by
  obtain ⟨ts, hts, hjoin⟩ := lex_eq_ok.mp hlex
  obtain ⟨us, hus, rfl⟩ := lex_eq_ok.mp hother
  exact (hjoin ▸ hts.abut false).of_append.prefix_of_spellings (hus.abut false) h

end PatternEngine

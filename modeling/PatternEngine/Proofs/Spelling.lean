import PatternEngine.Proofs.Prefixes
import PatternEngine.Proofs.Tiling

/-!
# Tokens read back as their pattern

Concatenations aside, the tokens of a pattern follow one another from its start
to its end, and their texts in order are the pattern. A concatenation stands in
front of an operand exactly where the last token that is no quantifier ends
another operand: the one bit that the scanner keeps is a property of all tokens
before it. Main statement: lexing loses nothing, so no two patterns lex alike.
-/

namespace PatternEngine

def Token.isConcatenation (t : Token) : Bool := t.kind == .operator .concatenate

/-- The tokens that characters spell. -/
def written (tokens : List Token) : List Token := tokens.filter fun t => !t.isConcatenation

/-- The last token that is neither a quantifier nor a concatenation. -/
def lastPlain? (tokens : List Token) : Option Token :=
  ((written tokens).filter fun t => !t.isQuantifier).getLast?

/-- Tokens whose written ones cover a pattern from its start to its end, each
from where the one before it stops, and read as the pattern. -/
structure ReadBack (source : String) (tokens : List Token) : Prop where
  tiles : Tiles Token.offset Token.stop (written tokens) 0 source.utf8ByteSize
  text : String.join ((written tokens).map Token.displayText) = source

/-- Tokens with a concatenation directly in front of those that start an operand
behind an operand, and nowhere else. Quantifiers are part of the operand before
them. A concatenation has no text and the offset of the token behind it. -/
structure Concatenated (tokens : List Token) : Prop where
  exists_next : ∀ before u after, tokens = before ++ u :: after → u.isConcatenation = true →
    ∃ t rest, after = t :: rest ∧ u = .concatenation t.offset
  preceded_iff : ∀ before t after, tokens = before ++ t :: after →
    ((∃ u ∈ before.getLast?, u.isConcatenation = true) ↔
      t.startsOperand = true ∧ ∃ u ∈ lastPlain? before, u.endsOperand = true)

/-! ### Written tokens -/

section
variable {offset : Nat} {cs : List Char} {ts : List Token}

theorem Lexemes.not_concatenation (h : Lexemes offset cs ts) :
    ∀ t ∈ ts, t.isConcatenation = false := by
  have hwritten : ∀ {kind : TokenKind} {c : Char}, kind.WrittenAs c →
      (kind == .operator .concatenate) = false := by
    intro kind c hkind
    rw [beq_eq_false_iff_ne]
    rintro rfl
    cases hkind
  induction h with
  | nil => exact nofun
  | single hkind _ ih => exact List.forall_mem_cons.mpr ⟨hwritten hkind, ih⟩
  | oneOf _ _ ih => exact List.forall_mem_cons.mpr ⟨rfl, ih⟩

theorem Lexemes.tiles (h : Lexemes offset cs ts) :
    Tiles Token.offset Token.stop ts offset (offset + String.utf8Len cs) := by
  induction h with
  | nil => exact .nil _
  | @single offset kind c cs ts hkind _ ih =>
    rw [String.utf8Len_cons, Nat.add_comm _ c.utf8Size, ← Nat.add_assoc]
    rw [← stop_single hkind offset] at ih ⊢
    exact ih.cons
  | @oneOf offset body cs ts _ _ ih =>
    rw [List.append_cons, ← List.cons_append, String.utf8Len_append, ← Nat.add_assoc,
      ← stop_charClass]
    exact ih.cons

theorem displayText_single {kind : TokenKind} {c : Char} (h : kind.WrittenAs c) (offset : Nat) :
    Token.displayText ⟨String.singleton c, offset, kind⟩ = String.singleton c := by
  cases kind with
  | operator op => cases op with
    | concatenate => cases h
    | alternate | quantify => rfl
  | charClass => cases h
  | literal | anyByte | groupOpen | groupClose | invalid => rfl

theorem Lexemes.text (h : Lexemes offset cs ts) :
    (String.join (ts.map Token.displayText)).toList = cs := by
  induction h with
  | nil => rfl
  | single hkind _ ih =>
    rw [List.map_cons, String.join_cons, displayText_single hkind, String.toList_append, ih,
      String.toList_singleton]
    rfl
  | @oneOf offset body cs ts _ _ ih =>
    have hclass : Token.displayText ⟨String.ofList body, offset, .charClass⟩ =
        "[" ++ String.ofList body ++ "]" := rfl
    rw [List.map_cons, String.join_cons, String.toList_append, ih, hclass]
    simp

end

/-! ### Concatenations -/

section
variable {ts : List Token}

theorem written_join (h : ∀ t ∈ ts, t.isConcatenation = false) (complete : Bool) :
    written (join complete ts) = ts := by
  induction ts generalizing complete with
  | nil => rfl
  | cons t ts ih =>
    obtain ⟨ht, hts⟩ := List.forall_mem_cons.mp h
    have hrest := ih hts (t.endsOperand || (complete && t.isQuantifier))
    have hinserted : (Token.concatenation t.offset).isConcatenation = true := rfl
    simp only [written] at hrest
    simp only [join]
    split <;> simp [written, ht, hinserted, hrest]

theorem getLast?_join (complete : Bool) (ts : List Token) :
    (join complete ts).getLast? = ts.getLast? := by
  induction ts generalizing complete with
  | nil => rfl
  | cons t ts ih =>
    simp only [join]
    split <;> simp only [List.getLast?_cons, Option.getD_some, ih]

theorem completes_append (complete : Bool) (ts us : List Token) :
    completes complete (ts ++ us) = completes (completes complete ts) us := by
  induction ts generalizing complete with
  | nil => rfl
  | cons t ts ih => exact ih _

/-- An operand is complete exactly when the last token that is no quantifier
ends one. -/
theorem completes_iff (h : ∀ t ∈ ts, t.isConcatenation = false) :
    completes false ts = true ↔ ∃ u ∈ lastPlain? ts, u.endsOperand = true := by
  induction ts using List.reverseRecOn with
  | nil => simp [completes, lastPlain?, written]
  | append_singleton ts t ih =>
    obtain ⟨hts, ht⟩ := List.forall_mem_append.mp h
    have hlast := List.forall_mem_singleton.mp ht
    have hstep : completes false (ts ++ [t]) =
        (t.endsOperand || (completes false ts && t.isQuantifier)) := completes_append ..
    rw [hstep]
    cases hq : t.isQuantifier with
    | true =>
      -- a quantifier ends no operand of its own
      have hends : t.endsOperand = false := by
        unfold Token.isQuantifier at hq
        unfold Token.endsOperand
        split at hq <;> simp_all
      simp [hends, lastPlain?, written, hlast, hq, ih hts]
    | false => simp [lastPlain?, written, hlast, hq]

/-- A concatenation stands in front of the operand that it was put there for. -/
theorem exists_next_of_concatenation (h : ∀ t ∈ ts, t.isConcatenation = false)
    {before after : List Token} {u : Token} (hsplit : join false ts = before ++ u :: after)
    (hu : u.isConcatenation = true) :
    ∃ t rest, after = t :: rest ∧ u = .concatenation t.offset := by
  obtain ⟨firsts, others, rfl, hcut⟩ := exists_cut_of_join hsplit
  have hothers : ∀ t ∈ others, t ≠ u := by
    rintro t ht rfl
    rw [(List.forall_mem_append.mp h).2 t ht] at hu
    cases hu
  rcases hcut with ⟨-, hafter⟩ | ⟨t, rest, -, hafter, ht, -⟩
  · cases others with
    | nil => cases hafter
    | cons t others =>
      simp only [join] at hafter
      split at hafter
      · obtain ⟨rfl, rfl⟩ := List.cons.inj hafter
        exact ⟨t, _, rfl, rfl⟩
      · exact absurd (List.cons.inj hafter).1.symm (hothers t (List.mem_cons_self ..))
  · exact absurd (List.cons.inj hafter).1.symm (hothers t ht)

theorem preceded_iff_of_join (h : ∀ t ∈ ts, t.isConcatenation = false)
    {before after : List Token} {t : Token} (hsplit : join false ts = before ++ t :: after) :
    (∃ u ∈ before.getLast?, u.isConcatenation = true) ↔
      t.startsOperand = true ∧ ∃ u ∈ lastPlain? before, u.endsOperand = true := by
  obtain ⟨firsts, others, rfl, hcut⟩ := exists_cut_of_join hsplit
  have hfirsts := (List.forall_mem_append.mp h).1
  have hself : written firsts = firsts := by simpa [written] using hfirsts
  have hwritten : lastPlain? (join false firsts) = lastPlain? firsts := by
    rw [lastPlain?, lastPlain?, written_join hfirsts, hself]
  rcases hcut with ⟨rfl, hafter⟩ | ⟨u, rest, rfl, hafter, -, hstarts, hcomplete⟩
  · rw [hwritten, ← completes_iff hfirsts]
    refine iff_of_false ?_ ?_
    · rintro ⟨u, hu, hconcat⟩
      rw [getLast?_join] at hu
      rw [hfirsts u (List.mem_of_getLast? hu)] at hconcat
      cases hconcat
    · rintro ⟨hstarts, hcomplete⟩
      rw [hcomplete] at hafter
      rw [startsOperand_of_join hafter] at hstarts
      cases hstarts
  · obtain ⟨rfl, -⟩ := List.cons.inj hafter
    have hlast : lastPlain? (join false firsts ++ [.concatenation t.offset]) =
        lastPlain? firsts := by
      rw [← hwritten, lastPlain?, written, List.filter_append]
      simp [lastPlain?, written, Token.isConcatenation, Token.concatenation]
    rw [hlast, ← completes_iff hfirsts]
    exact iff_of_true ⟨_, List.getLast?_concat .., rfl⟩ ⟨hstarts, hcomplete⟩

theorem concatenated_join (h : ∀ t ∈ ts, t.isConcatenation = false) :
    Concatenated (join false ts) where
  exists_next _ _ _ := exists_next_of_concatenation h
  preceded_iff _ _ _ := preceded_iff_of_join h

end

/-! ### Patterns -/

theorem readBack_of_lexemes {source : String} {ts : List Token}
    (h : Lexemes 0 source.toList ts) : ReadBack source (join false ts) := by
  have hwritten : written (join false ts) = ts := written_join h.not_concatenation false
  have hsize : 0 + String.utf8Len source.toList = source.utf8ByteSize := by
    rw [Nat.zero_add, ← String.utf8ByteSize_ofList, String.ofList_toList]
  constructor
  · rw [hwritten, ← hsize]
    exact h.tiles
  · rw [hwritten]
    exact String.toList_inj.mp h.text

/-- The tokens of a pattern read back as the pattern. They have a concatenation
in front of exactly the operands that follow another operand. And no two patterns
lex alike, where lexing fails as well. -/
theorem lex_lossless :
    (∀ source tokens, lex source = .ok tokens → ReadBack source tokens ∧ Concatenated tokens) ∧
      Function.Injective lex := by
  have hread : ∀ source tokens, lex source = .ok tokens →
      ReadBack source tokens ∧ Concatenated tokens := by
    intro source tokens h
    obtain ⟨ts, hts, rfl⟩ := lex_eq_ok.mp h
    exact ⟨readBack_of_lexemes hts, concatenated_join hts.not_concatenation⟩
  refine ⟨hread, fun source other h => ?_⟩
  cases hlex : lex source with
  | ok tokens =>
    rw [hlex] at h
    rw [← (hread source tokens hlex).1.text, (hread other tokens h.symm).1.text]
  | error e =>
    rw [hlex] at h
    obtain ⟨fault, hsource, -⟩ := lex_eq_error.mp hlex
    obtain ⟨fault', hother, -⟩ := lex_eq_error.mp h.symm
    exact (LexFault.inPattern_inj (hsource.symm.trans hother)).2

/-- The class holds a closing parenthesis and a character of two bytes. -/
def starThenClass : List Token :=
  [⟨"a", 0, .literal⟩, ⟨"*", 1, .operator (.quantify .zeroOrMore)⟩, .concatenation 2,
    ⟨")é", 2, .charClass⟩, .concatenation 7, ⟨"b", 7, .literal⟩]

theorem lex_lossless_starThenClass : lex "a*[)é]b" = .ok starThenClass ∧
    String.join ((written starThenClass).map Token.displayText) = "a*[)é]b" ∧
    (∃ u ∈ (starThenClass.take 3).getLast?, u.isConcatenation = true) := by
  have hlex : lex "a*[)é]b" = .ok starThenClass := by cbv
  obtain ⟨hread, hconcat⟩ := lex_lossless.1 _ _ hlex
  refine ⟨hlex, hread.text, ?_⟩
  have hsplit : starThenClass = starThenClass.take 3 ++ ⟨")é", 2, .charClass⟩ ::
      starThenClass.drop 4 := by decide
  exact (hconcat.preceded_iff _ _ _ hsplit).mpr ⟨rfl, ⟨"a", 0, .literal⟩, by decide, rfl⟩

end PatternEngine

import PatternEngine.Proofs.Lexing

/-!
# Where lexing fails

The scanner stops at the first place where no token can be cut, and only there:
everything in front of it scans by itself. A class hides whatever it lists, so
whether a character is out of place depends on all brackets before it. Main
statement: each of the two errors is reported at a place exactly when the text
before it scans and the place itself is bad, all other patterns scan, and a
place that is reported never lies inside a character.
-/

namespace PatternEngine

/-- A character that is a token by itself or opens a class. -/
def StartsToken (c : Char) : Prop :=
  isWordChar c = true ∨ c ∈ ['.', '|', '*', '+', '?', '(', ')', '[']

def Scans (text : String) : Prop := ∃ tokens, lex text = .ok tokens

/-- A pattern scans up to a byte offset, and the character there starts no
token. -/
def UnexpectedAt (source : String) (index : Nat) (found : Char) : Prop :=
  ∃ before after, source = before ++ String.singleton found ++ after ∧
    before.utf8ByteSize = index ∧ Scans before ∧ ¬StartsToken found

/-- A pattern scans up to a byte offset, and the bracket there is never closed. -/
def UnclosedAt (source : String) (start : Nat) : Prop :=
  ∃ before after, source = before ++ "[" ++ after ∧
    before.utf8ByteSize = start ∧ Scans before ∧ ']' ∉ after.toList

namespace LexError

def source : LexError → String
  | .unclosedClass pattern _ | .unexpectedCharacter pattern _ _ => pattern

/-- The byte offset that an error points to. -/
def position : LexError → Nat
  | .unclosedClass _ start => start
  | .unexpectedCharacter _ index _ => index

end LexError

theorem Symbol.ofChar?_eq_none {c : Char} : Symbol.ofChar? c = none ↔ ¬StartsToken c := by
  unfold Symbol.ofChar?
  split
  case h_9 =>
    have hword : (c.isAlphanum || c == '_') = isWordChar c := rfl
    rw [hword]
    split <;> simp_all [StartsToken]
  all_goals simp [StartsToken]

/-! ### The scan -/

/-- Remaining characters in front of which the scan stops, and why. -/
inductive FaultAt (offset : Nat) : List Char → LexFault → Prop where
  | unexpected {c : Char} {cs : List Char} (h : ¬StartsToken c) :
    FaultAt offset (c :: cs) (.unexpectedCharacter offset c)
  | unclosed {cs : List Char} (h : ']' ∉ cs) : FaultAt offset ('[' :: cs) (.unclosedClass offset)

theorem FaultAt.lexemesFrom_eq {offset : Nat} {cs : List Char} {fault : LexFault}
    (h : FaultAt offset cs fault) (acc : Array Token) :
    lexemesFrom offset acc cs = .error fault := by
  cases h with
  | unexpected hc =>
    rw [lexemesFrom, Symbol.ofChar?_eq_none.mpr hc]
  | @unclosed cs hcs =>
    have hdrop : cs.dropWhile (· != ']') = [] := by
      rw [List.dropWhile_eq_nil_iff]
      intro c hc
      rw [bne_iff_ne]
      rintro rfl
      exact hcs hc
    rw [lexemesFrom, Symbol.ofChar?_eq_classOpen.mpr rfl]
    simp only
    split
    · rfl
    · rename_i hcons
      rw [hdrop] at hcons
      cases hcons

theorem exists_faultAt {offset : Nat} {acc : Array Token} {cs : List Char} {fault : LexFault}
    (h : lexemesFrom offset acc cs = .error fault) : ∃ before after ts, cs = before ++ after ∧
      Lexemes offset before ts ∧ FaultAt (offset + String.utf8Len before) after fault := by
  fun_induction lexemesFrom offset acc cs with
  | case1 => cases h
  | case2 offset acc c rest hc =>
    cases h
    exact ⟨[], c :: rest, [], rfl, .nil, .unexpected (Symbol.ofChar?_eq_none.mp hc)⟩
  | case3 offset acc c rest kind hkind ih =>
    obtain ⟨before, after, ts, rfl, hts, hfault⟩ := ih h
    refine ⟨c :: before, after, _, rfl, .single (Symbol.ofChar?_eq_single.mp hkind) hts, ?_⟩
    rwa [String.utf8Len_cons, Nat.add_comm _ (Char.utf8Size c), ← Nat.add_assoc]
  | case4 offset acc c rest hopen hdrop =>
    cases h
    obtain rfl := Symbol.ofChar?_eq_classOpen.mp hopen
    refine ⟨[], _, [], rfl, .nil, .unclosed fun hmem => ?_⟩
    have := List.dropWhile_eq_nil_iff.mp hdrop _ hmem
    simp at this
  | case5 offset acc c rest hopen c' after' hdrop t ih =>
    obtain ⟨before, after, ts, rfl, hts, hfault⟩ := ih h
    obtain ⟨hbody, hrest⟩ := exists_body hdrop
    obtain rfl := Symbol.ofChar?_eq_classOpen.mp hopen
    refine ⟨_, after, _, ?_, .oneOf hbody hts, ?_⟩
    · exact congrArg ('[' :: ·) (hrest.trans (by simp))
    · rw [List.append_cons, ← List.cons_append, String.utf8Len_append, ← Nat.add_assoc,
        ← stop_charClass]
      exact hfault

/-- The scan fails exactly where it has come by tokens and can cut no other. -/
theorem lexemesFrom_eq_error {offset : Nat} {acc : Array Token} {cs : List Char}
    {fault : LexFault} : lexemesFrom offset acc cs = .error fault ↔
      ∃ before after ts, cs = before ++ after ∧ Lexemes offset before ts ∧
        FaultAt (offset + String.utf8Len before) after fault := by
  refine ⟨exists_faultAt, ?_⟩
  rintro ⟨before, after, ts, rfl, hts, hfault⟩
  rw [lexemesFrom_append hts]
  exact hfault.lexemesFrom_eq _

/-! ### Patterns -/

theorem scans_iff {text : String} : Scans text ↔ ∃ ts, Lexemes 0 text.toList ts := by
  simp only [Scans, lex_eq_ok]
  exact ⟨fun ⟨_, ts, hts, _⟩ => ⟨ts, hts⟩, fun ⟨ts, hts⟩ => ⟨_, ts, hts, rfl⟩⟩

/-- A pattern has a fault where its first part scans and the scan of the rest
stops at once. -/
theorem lex_eq_fault {source : String} (fault : LexFault) :
    lex source = .error (fault.inPattern source) ↔
      ∃ before after, source = before ++ after ∧ Scans before ∧
        FaultAt before.utf8ByteSize after.toList fault := by
  have hlex : lex source = .error (fault.inPattern source) ↔
      lexemesFrom 0 #[] source.toList = .error fault := by
    rw [lex_eq_error]
    constructor
    · rintro ⟨other, he, hscan⟩
      rwa [(LexFault.inPattern_inj he).1]
    · exact fun hscan => ⟨fault, rfl, hscan⟩
  rw [hlex, lexemesFrom_eq_error]
  constructor
  · rintro ⟨before, after, ts, hsource, hts, hfault⟩
    refine ⟨String.ofList before, String.ofList after, ?_, scans_iff.mpr ⟨ts, ?_⟩, ?_⟩
    · rw [← String.ofList_append, ← hsource, String.ofList_toList]
    · rwa [String.toList_ofList]
    · rwa [String.utf8ByteSize_ofList, String.toList_ofList, ← Nat.zero_add (String.utf8Len before)]
  · rintro ⟨before, after, rfl, hbefore, hfault⟩
    obtain ⟨ts, hts⟩ := scans_iff.mp hbefore
    refine ⟨_, _, ts, String.toList_append, hts, ?_⟩
    rwa [Nat.zero_add, ← String.utf8ByteSize_ofList, String.ofList_toList]

theorem eq_singleton_append {text : String} {c : Char} {cs : List Char}
    (h : text.toList = c :: cs) : text = String.singleton c ++ String.ofList cs :=
  String.toList_inj.mp (by simp [h])

theorem lex_eq_unexpected {source : String} {index : Nat} {found : Char} :
    lex source = .error (.unexpectedCharacter source index found) ↔
      UnexpectedAt source index found := by
  refine (lex_eq_fault (.unexpectedCharacter index found)).trans ⟨?_, ?_⟩
  · rintro ⟨before, after, rfl, hbefore, hfault⟩
    generalize hafter : after.toList = cs at hfault
    cases hfault with
    | @unexpected _ cs hfound =>
      refine ⟨before, String.ofList cs, ?_, rfl, hbefore, hfound⟩
      rw [eq_singleton_append hafter, String.append_assoc]
  · rintro ⟨before, after, rfl, rfl, hbefore, hfound⟩
    refine ⟨before, _, String.append_assoc, hbefore, ?_⟩
    rw [String.toList_append, String.toList_singleton]
    exact .unexpected hfound

theorem lex_eq_unclosed {source : String} {start : Nat} :
    lex source = .error (.unclosedClass source start) ↔ UnclosedAt source start := by
  refine (lex_eq_fault (.unclosedClass start)).trans ⟨?_, ?_⟩
  · rintro ⟨before, after, rfl, hbefore, hfault⟩
    generalize hafter : after.toList = cs at hfault
    cases hfault with
    | @unclosed cs hcs =>
      refine ⟨before, String.ofList cs, ?_, rfl, hbefore, by rwa [String.toList_ofList]⟩
      rw [eq_singleton_append hafter, String.append_assoc]
      rfl
  · rintro ⟨before, after, rfl, rfl, hbefore, hopen⟩
    refine ⟨before, _, String.append_assoc, hbefore, ?_⟩
    rw [String.toList_append]
    exact .unclosed hopen

/-- A fault is reported at the offset where the scan stopped. -/
theorem FaultAt.position_eq {offset : Nat} {cs : List Char} {fault : LexFault}
    (h : FaultAt offset cs fault) (source : String) :
    (fault.inPattern source).position = offset := by
  cases h <;> rfl

/-- The scanner reports the first place that is bad. It reports a character when
the text before it scans and the character starts no token, and a bracket when
the text before it scans and no closing bracket follows. All other patterns
scan. What is reported starts where a character of the pattern does. -/
theorem lex_fails_at_first_bad_place (source : String) :
    (∀ index found, lex source = .error (.unexpectedCharacter source index found) ↔
      UnexpectedAt source index found) ∧
    (∀ start, lex source = .error (.unclosedClass source start) ↔ UnclosedAt source start) ∧
    ((¬∃ index found, UnexpectedAt source index found) → (¬∃ start, UnclosedAt source start) →
      Scans source) ∧
    ∀ e, lex source = .error e →
      e.source = source ∧ String.Pos.Raw.IsValid source ⟨e.position⟩ := by
  refine ⟨fun _ _ => lex_eq_unexpected, fun _ => lex_eq_unclosed,
    fun hunexpected hunclosed => ?_, fun e he => ?_⟩
  · cases hlex : lex source with
    | ok tokens => exact ⟨tokens, hlex⟩
    | error e =>
      obtain ⟨fault, rfl, -⟩ := lex_eq_error.mp hlex
      cases fault with
      | unexpectedCharacter index found =>
        exact absurd ⟨index, found, lex_eq_unexpected.mp hlex⟩ hunexpected
      | unclosedClass start => exact absurd ⟨start, lex_eq_unclosed.mp hlex⟩ hunclosed
  · obtain ⟨fault, rfl, -⟩ := lex_eq_error.mp he
    obtain ⟨before, after, hsource, -, hfault⟩ := (lex_eq_fault fault).mp he
    refine ⟨by cases fault <;> rfl, String.Pos.Raw.isValid_iff_exists_append.mpr ?_⟩
    exact ⟨before, after, hsource, congrArg String.Pos.Raw.mk (hfault.position_eq source)⟩

/-- The character of two bytes is hidden by a class and then stands free. In the
second pattern a bracket hides another one and is not closed. -/
theorem lex_fails_at_first_bad_place_behindClass :
    UnexpectedAt "[é]*é" 5 'é' ∧ String.Pos.Raw.IsValid "[é]*é" ⟨5⟩ ∧
      UnclosedAt "a[([" 1 ∧ Scans "a[([]" := by
  have hfree : lex "[é]*é" = .error (.unexpectedCharacter "[é]*é" 5 'é') := by cbv
  have hopen : lex "a[([" = .error (.unclosedClass "a[([" 1) := by cbv
  have hclosed : lex "a[([]" =
      .ok [⟨"a", 0, .literal⟩, .concatenation 1, ⟨"([", 1, .charClass⟩] := by cbv
  obtain ⟨hunexpected, -, -, hvalid⟩ := lex_fails_at_first_bad_place "[é]*é"
  obtain ⟨-, hunclosed, -, -⟩ := lex_fails_at_first_bad_place "a[(["
  obtain ⟨hunexpected', hunclosed', hscans, -⟩ := lex_fails_at_first_bad_place "a[([]"
  refine ⟨(hunexpected 5 'é').mp hfree, (hvalid _ hfree).2, (hunclosed 1).mp hopen,
    hscans ?_ ?_⟩
  · rintro ⟨index, found, h⟩
    have herror := (hunexpected' index found).mpr h
    rw [hclosed] at herror
    cases herror
  · rintro ⟨start, h⟩
    have herror := (hunclosed' start).mpr h
    rw [hclosed] at herror
    cases herror

end PatternEngine

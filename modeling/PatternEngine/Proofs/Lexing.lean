import PatternEngine.Lexeme
import PatternEngine.Proofs.Grammar

/-!
# What the tokens of a pattern say about it

The tokens of a pattern spell its characters one after another and leave none
out. Concatenations spell nothing; one stands in front of each operand that
directly follows another.
-/

namespace PatternEngine

/-- The characters that are a token of a kind by themselves. -/
def TokenKind.WrittenAs : TokenKind → Char → Prop
  | .literal, c => isWordChar c = true
  | .anyByte, c => c = '.'
  | .operator .alternate, c => c = '|'
  | .operator (.quantify q), c => c = q.symbol
  | .groupOpen, c => c = '('
  | .groupClose, c => c = ')'
  | _, _ => False

theorem Symbol.ofChar?_eq_single {kind : TokenKind} {c : Char} :
    Symbol.ofChar? c = some (.single kind) ↔ kind.WrittenAs c := by
  constructor
  · intro h
    unfold Symbol.ofChar? at h
    split at h
    case h_9 =>
      split at h
      · rename_i hword
        cases h
        exact hword
      · cases h
    all_goals cases h
    all_goals rfl
  · intro h
    cases kind with
    | literal =>
      unfold Symbol.ofChar?
      split
      case h_9 => exact if_pos h
      all_goals cases h
    | operator op =>
      cases op with
      | quantify q => cases q <;> (cases h; rfl)
      | alternate => cases h; rfl
      | concatenate => cases h
    | anyByte | groupOpen | groupClose => cases h; rfl
    | charClass | invalid => cases h

theorem Symbol.ofChar?_eq_classOpen {c : Char} :
    Symbol.ofChar? c = some .classOpen ↔ c = '[' := by
  constructor
  · intro h
    unfold Symbol.ofChar? at h
    split at h
    case h_9 =>
      split at h <;> cases h
    case h_8 => rfl
    all_goals cases h
  · rintro rfl
    rfl

/-- Characters that stand at a byte offset and the tokens that they spell. -/
inductive Lexemes : Nat → List Char → List Token → Prop where
  | nil {offset : Nat} : Lexemes offset [] []
  | single {offset : Nat} {kind : TokenKind} {c : Char} {cs : List Char} {ts : List Token}
      (h : kind.WrittenAs c) (hrest : Lexemes (offset + c.utf8Size) cs ts) :
    Lexemes offset (c :: cs) (⟨String.singleton c, offset, kind⟩ :: ts)
  | oneOf {offset : Nat} {body cs : List Char} {ts : List Token} (h : ']' ∉ body)
      (hrest : Lexemes (Token.stop ⟨String.ofList body, offset, .charClass⟩) cs ts) :
    Lexemes offset ('[' :: (body ++ ']' :: cs)) (⟨String.ofList body, offset, .charClass⟩ :: ts)

theorem stop_charClass (offset : Nat) (body : List Char) :
    Token.stop ⟨String.ofList body, offset, .charClass⟩ =
      offset + String.utf8Len ('[' :: (body ++ [']'])) := by
  have hopen : '['.utf8Size = 1 := rfl
  have hclose : ']'.utf8Size = 1 := rfl
  simp only [Token.stop, String.utf8ByteSize_ofList, String.utf8Len_cons, String.utf8Len_append,
    String.utf8Len_nil, hopen, hclose]
  omega

theorem dropWhile_eq_cons {body : List Char} (cs : List Char) (h : ']' ∉ body) :
    (body ++ ']' :: cs).dropWhile (· != ']') = ']' :: cs ∧
      (body ++ ']' :: cs).takeWhile (· != ']') = body := by
  have hbody : ∀ c ∈ body, (c != ']') = true := by
    intro c hc
    rw [bne_iff_ne]
    rintro rfl
    exact h hc
  constructor
  · rw [List.dropWhile_append_of_pos hbody]
    rfl
  · rw [List.takeWhile_append_of_pos hbody]
    exact List.append_nil body

theorem exists_body {cs after : List Char} {c : Char} (h : cs.dropWhile (· != ']') = c :: after) :
    ']' ∉ cs.takeWhile (· != ']') ∧ cs = cs.takeWhile (· != ']') ++ ']' :: after := by
  have hc : c = ']' := by
    have := List.head?_dropWhile_not (· != ']') cs
    rw [h] at this
    simpa using this
  refine ⟨fun hmem => ?_, ?_⟩
  · have := List.mem_takeWhile_imp hmem
    simp at this
  · obtain rfl := hc
    rw [← h, List.takeWhile_append_dropWhile]

theorem lexemes_of_lexemesFrom {offset : Nat} {acc out : Array Token} {cs : List Char}
    (h : lexemesFrom offset acc cs = .ok out) :
    ∃ ts, out.toList = acc.toList ++ ts ∧ Lexemes offset cs ts := by
  fun_induction lexemesFrom offset acc cs with
  | case1 offset acc =>
    cases h
    exact ⟨[], (List.append_nil _).symm, .nil⟩
  | case2 => cases h
  | case3 offset acc c rest kind hkind ih =>
    obtain ⟨ts, hout, hts⟩ := ih h
    refine ⟨_ :: ts, ?_, .single (Symbol.ofChar?_eq_single.mp hkind) hts⟩
    rw [hout, Array.toList_push, List.append_assoc]
    rfl
  | case4 => cases h
  | case5 offset acc c rest hopen c' after hdrop t ih =>
    obtain ⟨ts, hout, hts⟩ := ih h
    obtain ⟨hbody, hrest⟩ := exists_body hdrop
    obtain rfl := Symbol.ofChar?_eq_classOpen.mp hopen
    refine ⟨t :: ts, ?_, ?_⟩
    · rw [hout, Array.toList_push, List.append_assoc]
      rfl
    · rw [hrest]
      exact .oneOf hbody hts

/-- The scanner comes by every place up to which tokens are spelled. -/
theorem lexemesFrom_append {offset : Nat} {cs : List Char} {ts : List Token}
    (h : Lexemes offset cs ts) (acc : Array Token) (after : List Char) :
    lexemesFrom offset acc (cs ++ after) =
      lexemesFrom (offset + String.utf8Len cs) (acc ++ ts.toArray) after := by
  induction h generalizing acc with
  | nil => simp
  | @single offset kind c cs ts hkind hrest ih =>
    rw [List.cons_append, lexemesFrom, Symbol.ofChar?_eq_single.mpr hkind]
    simp only [ih, String.utf8Len_cons]
    rw [Nat.add_assoc, Nat.add_comm (Char.utf8Size c)]
    simp
  | @oneOf offset body cs ts hbody hrest ih =>
    obtain ⟨hdrop, htake⟩ := dropWhile_eq_cons (cs ++ after) hbody
    rw [List.cons_append, List.append_assoc, List.cons_append, lexemesFrom,
      Symbol.ofChar?_eq_classOpen.mpr rfl]
    simp only
    split
    · rename_i hnil
      rw [hdrop] at hnil
      cases hnil
    · rename_i c rest hcons
      rw [hdrop] at hcons
      cases hcons
      have hlength : String.utf8Len ('[' :: (body ++ ']' :: cs)) =
          String.utf8Len ('[' :: (body ++ [']'])) + String.utf8Len cs := by
        rw [← String.utf8Len_append]
        simp
      simp only [htake]
      rw [ih, stop_charClass, hlength, ← Nat.add_assoc]
      simp

theorem lexemesFrom_of_lexemes {offset : Nat} {cs : List Char} {ts : List Token}
    (h : Lexemes offset cs ts) (acc : Array Token) :
    lexemesFrom offset acc cs = .ok (acc ++ ts.toArray) := by
  have hall := lexemesFrom_append h acc []
  rwa [List.append_nil, lexemesFrom] at hall

theorem Lexemes.eq_nil {offset : Nat} {cs : List Char} (h : Lexemes offset cs []) : cs = [] := by
  cases h
  rfl

theorem Lexemes.unique {offset : Nat} {cs : List Char} {ts us : List Token}
    (hts : Lexemes offset cs ts) (hus : Lexemes offset cs us) : ts = us := by
  have heq := (lexemesFrom_of_lexemes hts #[]).symm.trans (lexemesFrom_of_lexemes hus #[])
  simpa using heq

/-! ### Concatenations -/

def join : Bool → List Token → List Token
  | _, [] => []
  | complete, t :: rest =>
    let joined := t :: join (t.endsOperand || (complete && t.isQuantifier)) rest
    if complete && t.startsOperand then .concatenation t.offset :: joined else joined

theorem join_ne_nil (complete : Bool) (t : Token) (ts : List Token) :
    join complete (t :: ts) ≠ [] := by
  simp only [join]
  split <;> simp

theorem toList_joinFrom (complete : Bool) (joined : Array Token) (ts : List Token) :
    (joinFrom complete joined ts).toList = joined.toList ++ join complete ts := by
  induction ts generalizing complete joined with
  | nil => exact (List.append_nil _).symm
  | cons t ts ih =>
    simp only [joinFrom, join, ih]
    split <;> simp

/-- The tokens of a pattern are those that its characters spell, with the
concatenations between them. -/
theorem lex_eq_ok {source : String} {tokens : List Token} :
    lex source = .ok tokens ↔
      ∃ ts, Lexemes 0 source.toList ts ∧ tokens = join false ts := by
  constructor
  · intro h
    simp only [lex, lexemes] at h
    split at h
    · rename_i out hout
      obtain ⟨ts, hlist, hts⟩ := lexemes_of_lexemesFrom hout
      cases h
      refine ⟨ts, hts, ?_⟩
      rw [toList_joinFrom, hlist]
      rfl
    · cases h
  · rintro ⟨ts, hts, rfl⟩
    simp only [lex, lexemes, lexemesFrom_of_lexemes hts]
    rw [toList_joinFrom]
    simp

theorem LexFault.inPattern_inj {fault other : LexFault} {source text : String}
    (h : fault.inPattern source = other.inPattern text) : fault = other ∧ source = text := by
  cases fault <;> cases other <;> cases h <;> exact ⟨rfl, rfl⟩

/-- An error names the pattern and the fault that the scan stopped at. -/
theorem lex_eq_error {source : String} {e : LexError} : lex source = .error e ↔
    ∃ fault, e = fault.inPattern source ∧ lexemesFrom 0 #[] source.toList = .error fault := by
  simp only [lex, lexemes]
  split <;> rename_i hscan <;> simp [hscan, eq_comm]

end PatternEngine

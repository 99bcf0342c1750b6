import PatternEngine.Proofs.Contexts

/-!
# What a class stands for

A class stands for the bytes that its items list, or after a caret for all the
others. Its code finds out whether the byte under the cursor is one of them,
wherever the code stands, and moves past that byte if it is. Nothing else about
a class can be seen from outside: two spellings of one set of bytes are alike in
every context, and a caret turns a class into the class of the other bytes.
-/

namespace PatternEngine
open Machine

namespace CharClass

variable {body : String} {c d : CharClass} {b : UInt8}

def Lists (c : CharClass) (b : UInt8) : Prop := ∃ r ∈ c.items, r.lo ≤ b ∧ b ≤ r.hi

/-- A class reads its items behind the caret, if there is one, and keeps whether
there is. -/
theorem ofBody?_eq_some : ofBody? body = some c ↔
    c.negated = (caret body.toList).1 ∧ itemsFrom [] (caret body.toList).2 = some c.items := by
  obtain ⟨negated, items, hne⟩ := c
  simp only [ofBody?]
  split
  · rename_i item more hitems
    simp only [hitems, Option.some.injEq, mk.injEq, eq_comm]
  · rename_i hnone
    refine ⟨nofun, fun ⟨_, hitems⟩ => ?_⟩
    obtain ⟨item, more, rfl⟩ := List.exists_cons_of_ne_nil hne
    exact absurd hitems (hnone item more)

theorem caret_of_head?_eq {cs : List Char} (h : cs.head? = some '^') :
    caret cs = (true, cs.tail) := by
  cases cs with
  | nil => cases h
  | cons c cs =>
    cases h
    rfl

theorem caret_of_head?_ne {cs : List Char} (h : cs.head? ≠ some '^') : caret cs = (false, cs) := by
  unfold caret
  split
  · exact absurd rfl h
  · rfl

/-- The bytes that a class with some body stands for. -/
def Denotes (body : String) (c : CharClass) (b : UInt8) : Prop :=
  if body.toList.head? = some '^' then ¬ c.Lists b else c.Lists b

theorem contains_iff_denotes (h : ofBody? body = some c) :
    c.contains b = true ↔ c.Denotes body b := by
  have hlists : c.items.any (·.contains b) = true ↔ c.Lists b := by
    simp only [List.any_eq_true, ByteRange.contains_iff, Lists]
  have hnegated := (ofBody?_eq_some.mp h).1
  unfold contains Denotes
  split
  · rename_i hhead
    rw [hnegated, caret_of_head?_eq hhead, ← hlists]
    simp
  · rename_i hhead
    rw [hnegated, caret_of_head?_ne hhead, ← hlists]
    simp

/-- A caret in front keeps the items and takes the other bytes. -/
theorem exists_ofBody?_caret (h : ofBody? body = some c) (hhead : body.toList.head? ≠ some '^') :
    ∃ d, ofBody? ("^" ++ body) = some d ∧ ∀ b, d.Denotes ("^" ++ body) b ↔ ¬ c.Denotes body b := by
  have hbody : ("^" ++ body).toList = '^' :: body.toList := String.toList_append
  obtain ⟨-, hitems⟩ := ofBody?_eq_some.mp h
  rw [caret_of_head?_ne hhead] at hitems
  refine ⟨⟨true, c.items, c.items_ne_nil⟩, ofBody?_eq_some.mpr ?_, fun b => ?_⟩
  · rw [hbody]
    exact ⟨rfl, hitems⟩
  · have hcaret : ("^" ++ body).toList.head? = some '^' := by rw [hbody, List.head?_cons]
    rw [Denotes, Denotes, if_neg hhead, if_pos hcaret]
    rfl

end CharClass

/-! ### The code of a class -/

theorem oneOf_path {body : String} {c : CharClass} (h : CharClass.ofBody? body = some c)
    {code subject : Array UInt8} {failAt pc i : Nat}
    (hstands : (Expr.oneOf c).fragment.code.StandsAt code failAt pc) (hi : i ≤ subject.size)
    (flag : Bool) :
    ((∃ b, subject[i]? = some b ∧ c.Denotes body b) →
      Path code subject ⟨pc, i, flag⟩ ⟨pc + (Expr.oneOf c).fragment.code.size, i + 1, true⟩) ∧
    ((¬∃ b, subject[i]? = some b ∧ c.Denotes body b) →
      Path code subject ⟨pc, i, flag⟩ ⟨pc + (Expr.oneOf c).fragment.code.size, i, false⟩) := by
  have hrun := (Expr.oneOf c).fragment_runs hstands hi flag
  have hfound : subject[i]?.any c.contains = true ↔
      ∃ b, subject[i]? = some b ∧ c.Denotes body b := by
    simp only [Option.any_eq_true, CharClass.contains_iff_denotes h]
  rw [← hfound]
  refine ⟨fun hany => ?_, fun hany => ?_⟩
  · rw [Expr.eval, Outcome.oneByte, if_pos hany] at hrun
    exact hrun.2
  · rw [Expr.eval, Outcome.oneByte, if_neg hany] at hrun
    exact hrun

/-! ### Spellings of a class -/

theorem Expr.Alike.oneOf {c d : CharClass} (h : ∀ b, c.contains b = d.contains b) :
    (Expr.oneOf c).Alike (.oneOf d) where
  nullable := rfl
  width := rfl
  eval := by
    intro subject i
    rw [Expr.eval, Expr.eval, funext h]

/-- A class is spelled anew with a body that stands for the same bytes. -/
inductive Respells : Shape → List Char → List Char → Prop where
  | oneOf {body other : String} {c d : CharClass} (hbody : ']' ∉ body.toList)
      (hother : ']' ∉ other.toList) (hc : CharClass.ofBody? body = some c)
      (hd : CharClass.ofBody? other = some d) (h : ∀ b, c.Denotes body b ↔ d.Denotes other b) :
    Respells .primary ('[' :: (body.toList ++ [']'])) ('[' :: (other.toList ++ [']']))

theorem Respells.alike {shape : Shape} {cs ds : List Char} (h : Respells shape cs ds) :
    shape.Alike cs ds := by
  cases h with
  | oneOf hbody hother hc hd h =>
    intro n
    refine ⟨_, n, _, n, .oneOf hbody (by rwa [String.ofList_toList]),
      .oneOf hother (by rwa [String.ofList_toList]), .oneOf fun b => ?_⟩
    rw [Bool.eq_iff_iff, CharClass.contains_iff_denotes hc, CharClass.contains_iff_denotes hd]
    exact h b

/-- A class is known by its set of bytes. Its code, wherever it stands, moves one
byte ahead and succeeds if there is a byte under the cursor and the class stands
for it, and otherwise fails with the cursor where it was. A class may be spelled
by any body that stands for the same bytes, in any pattern that compiles on both
sides. Behind a caret a body stands for exactly the bytes that it did not stand
for before. -/
theorem class_known_by_bytes :
    (∀ (body : String) (c : CharClass) (t : Token), CharClass.ofBody? body = some c →
      t.kind = .charClass → t.text = body → ∃ e, t.leaf? = some e ∧
        ∀ (code subject : Array UInt8) (failAt pc i : Nat) (flag : Bool),
          e.fragment.code.StandsAt code failAt pc → i ≤ subject.size →
            ((∃ b, subject[i]? = some b ∧ c.Denotes body b) →
              Path code subject ⟨pc, i, flag⟩ ⟨pc + e.fragment.code.size, i + 1, true⟩) ∧
            ((¬∃ b, subject[i]? = some b ∧ c.Denotes body b) →
              Path code subject ⟨pc, i, flag⟩ ⟨pc + e.fragment.code.size, i, false⟩)) ∧
    (∀ (options options' : CompileOptions) (source source' : String) (p p' : Pattern),
      compile options source = .ok p → compile options' source' = .ok p' →
        Replaces Respells .choice source.toList source'.toList →
          ∀ subject, p.isMatch subject = p'.isMatch subject) ∧
    (∀ (body : String) (c : CharClass), CharClass.ofBody? body = some c →
      body.toList.head? ≠ some '^' → ∃ d, CharClass.ofBody? ("^" ++ body) = some d ∧
        ∀ b, d.Denotes ("^" ++ body) b ↔ ¬ c.Denotes body b) := by
  refine ⟨?_, ?_, fun _ _ => CharClass.exists_ofBody?_caret⟩
  · rintro body c ⟨text, offset, kind⟩ hc rfl rfl
    refine ⟨.oneOf c, ?_, ?_⟩
    · rw [Token.leaf?, hc, Option.map_some]
    · exact fun code subject failAt pc i flag hstands hi => oneOf_path hc hstands hi flag
  · intro options options' source source' p p' h h' hreplaces subject
    exact isMatch_eq_of_alike h h' (hreplaces.alike fun _ _ _ => Respells.alike) subject

def digits : CharClass := ⟨false, [⟨48, 57, by decide⟩], by simp⟩

/-- The digits once more, as two ranges that overlap and the later one first. -/
def overlappingDigits : CharClass := ⟨false, [⟨53, 57, by decide⟩, ⟨48, 53, by decide⟩], by simp⟩

theorem ofBody?_digits : CharClass.ofBody? "0-9" = some digits := by cbv

theorem ofBody?_overlappingDigits :
    CharClass.ofBody? "5-90-5" = some overlappingDigits := by cbv

theorem digits_denotes (b : UInt8) :
    digits.Denotes "0-9" b ↔ overlappingDigits.Denotes "5-90-5" b := by
  have hplain : ("0-9").toList.head? ≠ some '^' := by decide
  have hplain' : ("5-90-5").toList.head? ≠ some '^' := by decide
  simp only [CharClass.Denotes, if_neg hplain, if_neg hplain', CharClass.Lists, digits,
    overlappingDigits, List.mem_cons, List.not_mem_nil, or_false, exists_eq_left, exists_eq_or_imp,
    UInt8.le_iff_toNat_le, UInt8.reduceToNat]
  omega

def digitThenLetter : Pattern where
  source := "[0-9]a"
  bytecode := #[5, 8, 12, 0, 0, 0, 9, 1, 97, 8, 12, 0, 0, 0, 1, 17, 18]
  groups := 0

def overlappingThenLetter : Pattern where
  source := "[5-90-5]a"
  bytecode := #[2, 53, 57, 11, 0, 0, 0, 3, 2, 48, 53, 8, 12, 0, 0, 0, 9, 1, 97, 8, 12, 0, 0, 0, 1,
    17, 18]
  groups := 0

theorem compile_digitThenLetter : compile {} "[0-9]a" = .ok digitThenLetter := by cbv

theorem compile_overlappingThenLetter :
    compile {} "[5-90-5]a" = .ok overlappingThenLetter := by cbv

theorem overlappingDigits_standsAt :
    (Expr.oneOf overlappingDigits).fragment.code.StandsAt overlappingThenLetter.bytecode 26 0 := by
  have hassemble : (Layout.ofExpr (.cat (.oneOf overlappingDigits) (.byte 97))).assemble 27 =
    .ok overlappingThenLetter.bytecode := by cbv
  obtain ⟨hbody, -⟩ := Code.standsAt_append.mp (Layout.standsAt_of_assemble hassemble)
  obtain ⟨hopen, -⟩ := Code.standsAt_append.mp hbody
  exact (Code.standsAt_append.mp hopen).1

theorem class_known_by_bytes_digits :
    Path overlappingThenLetter.bytecode #[48] ⟨0, 0, false⟩ ⟨12, 1, true⟩ ∧
      digitThenLetter.isMatch "7a" = overlappingThenLetter.isMatch "7a" ∧
      ∃ d, CharClass.ofBody? "^0-9" = some d ∧
        ∀ b, d.Denotes "^0-9" b ↔ ¬ digits.Denotes "0-9" b := by
  have ha : Shape.branch.Spelled ['a'] := ⟨0, _, _, .last (.plain (.byte rfl))⟩
  have hclass : Replaces Respells .branch ("[0-9]".toList ++ ['a']) ("[5-90-5]".toList ++ ['a']) :=
    .terms (.last (.plain (.here (.oneOf (by decide) (by decide) ofBody?_digits
      ofBody?_overlappingDigits digits_denotes)))) ha
  obtain ⟨hcode, hspelled, hcaret⟩ := class_known_by_bytes
  refine ⟨?_, hspelled {} {} _ _ _ _ compile_digitThenLetter compile_overlappingThenLetter
    (.only hclass) "7a", hcaret "0-9" digits ofBody?_digits (by decide)⟩
  obtain ⟨e, he, hpaths⟩ :=
    hcode _ _ ⟨"5-90-5", 0, .charClass⟩ ofBody?_overlappingDigits rfl rfl
  rw [Token.leaf?, ofBody?_overlappingDigits, Option.map_some, Option.some.injEq] at he
  subst he
  -- zero is listed by the second range only
  have hzero : overlappingDigits.Denotes "5-90-5" 48 :=
    (CharClass.contains_iff_denotes ofBody?_overlappingDigits).mp (by decide)
  exact (hpaths _ #[48] 26 0 0 false overlappingDigits_standsAt (Nat.zero_le _)).1 ⟨48, rfl, hzero⟩

end PatternEngine

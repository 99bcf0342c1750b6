import PatternEngine.Proofs.Matching

/-!
# Patterns of fixed widths miss nothing

The evaluator never takes a match back, so it may miss a word of the language.
It misses none where every term of a branch has a width: then a failure can be
undone, the next branch starts where the branch before it did, and a term that
matches has consumed as much as any of its words. This is so in a pattern
without quantifiers whose groups choose between alternatives of one width. The
alternatives of the pattern itself may differ in width, since nothing follows
them.
-/

open Computability
namespace PatternEngine

/-- Some word of a language stands in a subject at a position. -/
def Begins (l : Language UInt8) (subject : Array UInt8) (i : Nat) : Prop :=
  ∃ w ∈ l, w <+: subject.toList.drop i

section
variable {l m : Language UInt8} {subject : Array UInt8} {i : Nat} {b : UInt8} {w : List UInt8}

theorem drop_add_of_starts {u v : List UInt8} (h : v ++ u <+: subject.toList.drop i) :
    u <+: subject.toList.drop (i + v.length) := by
  obtain ⟨t, ht⟩ := h
  refine ⟨t, ?_⟩
  rw [← List.drop_drop, ← ht, List.append_assoc, List.drop_left]

theorem Begins.of_mul (h : Begins (l * m) subject i) :
    ∃ v ∈ l, v <+: subject.toList.drop i ∧ Begins m subject (i + v.length) := by
  obtain ⟨w, hw, hword⟩ := h
  obtain ⟨v, hv, u, hu, rfl⟩ := Language.mem_mul.mp hw
  exact ⟨v, hv, (List.prefix_append v u).trans hword, u, hu, drop_add_of_starts hword⟩

theorem Begins.of_add (h : Begins (l + m) subject i) :
    Begins l subject i ∨ Begins m subject i := by
  obtain ⟨w, hw, hword⟩ := h
  rcases (Language.mem_add l m w).mp hw with hw | hw
  · exact .inl ⟨w, hw, hword⟩
  · exact .inr ⟨w, hw, hword⟩

theorem getElem?_of_starts (h : b :: w <+: subject.toList.drop i) : subject[i]? = some b := by
  obtain ⟨t, ht⟩ := h
  have hget := congrArg (·[0]?) ht
  simpa using hget.symm

theorem oneByte_of_holds {holds : UInt8 → Bool} (hb : holds b = true)
    (h : b :: w <+: subject.toList.drop i) :
    Outcome.oneByte subject holds i = .matched (i + 1) := by
  rw [Outcome.oneByte, getElem?_of_starts h]
  exact if_pos hb

theorem oneByte_ne_aborted (subject : Array UInt8) (holds : UInt8 → Bool) (i : Nat) :
    Outcome.oneByte subject holds i ≠ .aborted := by
  unfold Outcome.oneByte
  split <;> exact nofun

end

/-! ### Expressions that miss nothing -/

namespace Expr

/-- The evaluator never gives up on an expression, and it matches wherever a
word of the language stands. -/
structure MissesNothing (e : Expr) (subject : Array UInt8) : Prop where
  ne_aborted : ∀ i, e.eval subject i ≠ .aborted
  exists_match : ∀ i, Begins e.language subject i → ∃ j, e.eval subject i = .matched j

theorem length_of_mem_language {e : Expr} {n : Nat} (he : e.width = some n) {w : List UInt8}
    (hw : w ∈ e.language) : w.length = n := by
  induction e generalizing n w with
  | any | byte b | oneOf c =>
    obtain ⟨b, -, rfl⟩ := hw
    cases he
    rfl
  | group id body ih => exact ih he hw
  | quantified q body ih => cases he
  | cat first rest ih₁ ih₂ =>
    obtain ⟨x, y, hx, hy, rfl⟩ := widthSum_eq_some.mp he
    obtain ⟨v, hv, u, hu, rfl⟩ := Language.mem_mul.mp hw
    rw [List.length_append, ih₁ hx hv, ih₂ hy hu]
  | alt first rest ih₁ ih₂ =>
    obtain ⟨hx, hy⟩ := widthJoin_eq_some.mp he
    rcases (Language.mem_add _ _ w).mp hw with hw | hw
    · exact ih₁ hx hw
    · exact ih₂ hy hw

namespace MissesNothing

variable {subject : Array UInt8} {first rest body : Expr}

theorem ofByte {e : Expr} {holds : UInt8 → Bool} (heval : e.eval subject = .oneByte subject holds)
    (hlanguage : e.language = byteWords holds) : e.MissesNothing subject where
  ne_aborted := by
    intro i
    rw [heval]
    exact oneByte_ne_aborted subject holds i
  exists_match := by
    rintro i ⟨w, hw, hword⟩
    rw [hlanguage] at hw
    obtain ⟨b, hb, rfl⟩ := hw
    exact ⟨i + 1, by rw [heval, oneByte_of_holds hb hword]⟩

theorem group (id : Nat) (h : body.MissesNothing subject) :
    (Expr.group id body).MissesNothing subject := ⟨h.ne_aborted, h.exists_match⟩

theorem cat (h₁ : first.MissesNothing subject) (h₂ : rest.MissesNothing subject) {n : Nat}
    (hwidth : first.width = some n) : (Expr.cat first rest).MissesNothing subject where
  ne_aborted := by
    intro i
    simp only [eval, hwidth, Option.isSome_some, Outcome.undoneIf, if_true]
    cases hfirst : first.eval subject i with
    | matched j => exact h₂.ne_aborted j
    | failed => simp [Outcome.andThen]
    | aborted => exact absurd hfirst (h₁.ne_aborted i)
  exists_match := by
    intro i h
    obtain ⟨v, hv, hword, hrest⟩ := Begins.of_mul h
    obtain ⟨j, hj⟩ := h₁.exists_match i ⟨v, hv, hword⟩
    -- a width is the length of every word, so the rest is tried where the word `v` ends
    have hstop : j = i + v.length := by
      rw [eq_add_of_eval hwidth hj, length_of_mem_language hwidth hv]
    obtain ⟨k, hk⟩ := h₂.exists_match (i + v.length) hrest
    refine ⟨k, ?_⟩
    simp only [eval, hj, Outcome.andThen, hstop]
    exact Outcome.undoneIf_eq_matched.mpr hk

theorem alt (h₁ : first.MissesNothing subject) (h₂ : rest.MissesNothing subject) :
    (Expr.alt first rest).MissesNothing subject where
  ne_aborted := by
    intro i
    rw [eval]
    cases hfirst : first.eval subject i with
    | matched j => simp [Outcome.orElse]
    | failed => exact h₂.ne_aborted i
    | aborted => exact absurd hfirst (h₁.ne_aborted i)
  exists_match := by
    intro i h
    rw [eval]
    cases hfirst : first.eval subject i with
    | matched j => exact ⟨j, rfl⟩
    | aborted => exact absurd hfirst (h₁.ne_aborted i)
    | failed =>
      rcases Begins.of_add h with h | h
      · obtain ⟨j, hj⟩ := h₁.exists_match i h
        rw [hfirst] at hj
        cases hj
      · exact h₂.exists_match i h

end MissesNothing

/-! ### Patterns of fixed widths -/

def quantifierFree : Expr → Bool
  | .any | .byte _ | .oneOf _ => true
  | .group _ body => body.quantifierFree
  | .quantified _ _ => false
  | .cat first rest | .alt first rest => first.quantifierFree && rest.quantifierFree

/-- The alternatives of a choice, from left to right. -/
def branches : Expr → List Expr
  | .alt first rest => first :: rest.branches
  | e => [e]

/-- In every group all alternatives have the same width. -/
def evenGroups : Expr → Bool
  | .any | .byte _ | .oneOf _ => true
  | .group _ body =>
    (body.branches.all fun b => body.branches.all fun c => b.width == c.width) && body.evenGroups
  | .quantified _ body => body.evenGroups
  | .cat first rest | .alt first rest => first.evenGroups && rest.evenGroups

theorem branches_ne_nil (e : Expr) : e.branches ≠ [] := by
  cases e <;> simp [branches]

theorem width_of_branches {e : Expr} {n : Nat} (h : ∀ b ∈ e.branches, b.width = some n) :
    e.width = some n := by
  induction e with
  | alt first rest _ ih =>
    simp only [branches, List.forall_mem_cons] at h
    exact widthJoin_eq_some.mpr ⟨h.1, ih h.2⟩
  | _ => exact h _ (by simp [branches])

end Expr

namespace Spells

variable {shape : Shape} {n m : Nat} {cs : List Char} {e : Expr}

theorem self_mem_branches (h : Spells shape n cs e m) (hshape : shape ≠ .choice) :
    e ∈ e.branches := by
  induction h with
  | plain _ ih | last _ ih => exact ih (by simp)
  | only | alt => exact absurd rfl hshape
  | byte | any | oneOf | group | quantified | cat => exact List.mem_singleton.mpr rfl

theorem exists_width (h : Spells shape n cs e m) (hfree : e.quantifierFree = true)
    (heven : e.evenGroups = true) : ∀ b ∈ e.branches, ∃ w, b.width = some w := by
  induction h with
  | byte | any | oneOf => simp [Expr.branches, Expr.width]
  | @group _ _ _ body _ ih =>
    simp only [Expr.evenGroups, Bool.and_eq_true, List.all_eq_true, beq_iff_eq] at heven
    obtain ⟨b, hb⟩ := List.exists_mem_of_ne_nil _ body.branches_ne_nil
    obtain ⟨w, hw⟩ := ih hfree heven.2 b hb
    have hbody : body.width = some w :=
      Expr.width_of_branches fun c hc => (heven.1 c hc b hb).trans hw
    simp only [Expr.branches, List.mem_singleton, forall_eq]
    exact ⟨w, hbody⟩
  | plain _ ih | last _ ih | only _ ih => exact ih hfree heven
  | quantified => cases hfree
  | cat he hf ih₁ ih₂ =>
    simp only [Expr.quantifierFree, Expr.evenGroups, Bool.and_eq_true] at hfree heven
    obtain ⟨v, hv⟩ := ih₁ hfree.1 heven.1 _ (he.self_mem_branches (by simp))
    obtain ⟨w, hw⟩ := ih₂ hfree.2 heven.2 _ (hf.self_mem_branches (by simp))
    simp only [Expr.branches, List.mem_singleton, forall_eq]
    exact ⟨v + w, widthSum_eq_some.mpr ⟨v, w, hv, hw, rfl⟩⟩
  | alt he _ ih₁ ih₂ =>
    simp only [Expr.quantifierFree, Expr.evenGroups, Bool.and_eq_true] at hfree heven
    have hfirst := ih₁ hfree.1 heven.1 _ (he.self_mem_branches (by simp))
    exact List.forall_mem_cons.mpr ⟨hfirst, ih₂ hfree.2 heven.2⟩

theorem missesNothing (h : Spells shape n cs e m) (hfree : e.quantifierFree = true)
    (heven : e.evenGroups = true) (subject : Array UInt8) : e.MissesNothing subject := by
  induction h with
  | byte | any | oneOf => exact .ofByte rfl rfl
  | group _ ih =>
    exact (ih hfree (Bool.and_eq_true_iff.mp heven).2).group _
  | plain _ ih | last _ ih | only _ ih => exact ih hfree heven
  | quantified => cases hfree
  | cat he _ ih₁ ih₂ =>
    simp only [Expr.quantifierFree, Expr.evenGroups, Bool.and_eq_true] at hfree heven
    obtain ⟨w, hw⟩ := he.exists_width hfree.1 heven.1 _ (he.self_mem_branches (by simp))
    exact (ih₁ hfree.1 heven.1).cat (ih₂ hfree.2 heven.2) hw
  | alt _ _ ih₁ ih₂ =>
    simp only [Expr.quantifierFree, Expr.evenGroups, Bool.and_eq_true] at hfree heven
    exact (ih₁ hfree.1 heven.1).alt (ih₂ hfree.2 heven.2)

end Spells

/-- A match is a word of the language, so it is enough that a word gives a
match. -/
theorem isMatch_iff_of_exists_match {options : CompileOptions} {source : String} {p : Pattern}
    {tree : Tree} {groups : Nat} (h : compile options source = .ok p)
    (htree : tree.Of source groups) (subject : String)
    (hmatch : Begins tree.language subject.toUTF8.data 0 →
      ∃ j, tree.eval subject.toUTF8.data = .matched j) :
    p.isMatch subject = true ↔ ∃ w ∈ tree.language, w <+: subject.toUTF8.data.toList := by
  rw [isMatch_eq h htree, Outcome.matched_verdict]
  constructor
  · rintro ⟨j, hj⟩
    exact Tree.exists_word_of_eval hj
  · exact hmatch

/-- A pattern without quantifiers whose groups choose between alternatives of
one width matches a subject exactly when the subject starts with a word of its
language. -/
theorem isMatch_iff_of_evenGroups {options : CompileOptions} {source : String} {p : Pattern}
    (h : compile options source = .ok p) :
    (∃ tree : Tree, tree.Of source p.groups) ∧
      ∀ (tree : Tree) (groups : Nat), tree.Of source groups →
        tree.all Expr.quantifierFree = true → tree.all Expr.evenGroups = true →
        ∀ subject : String, p.isMatch subject = true ↔
          ∃ w ∈ tree.language, w <+: subject.toUTF8.data.toList := by
  refine ⟨?_, ?_⟩
  · obtain ⟨tree, ⟨htree, -⟩, -⟩ := compile_ends h
    exact ⟨tree, htree⟩
  · intro tree groups htree hfree heven subject
    refine isMatch_iff_of_exists_match h htree subject fun hbegins => ?_
    cases tree with
    | none => exact ⟨0, rfl⟩
    | some e =>
      have hspells : Spells .choice 0 source.toList e groups := htree
      exact (hspells.missesNothing hfree heven _).exists_match 0 hbegins

def sharedStart : Pattern where
  source := "(ab|ac)d"
  bytecode := #[15, 1, 1, 97, 8, 12, 0, 0, 0, 18, 1, 98, 8, 12, 0, 0, 0, 5, 11, 0, 0, 0, 5, 13, 255,
    255, 255, 255, 11, 0, 0, 0, 26, 1, 97, 8, 12, 0, 0, 0, 18, 1, 99, 8, 12, 0, 0, 0, 5, 11, 0, 0,
    0, 5, 13, 255, 255, 255, 255, 16, 1, 12, 0, 0, 0, 9, 1, 100, 8, 12, 0, 0, 0, 1, 17, 18]
  groups := 1

def sharedStartTree : Tree :=
  some (.cat (.group 1 (.alt (.cat (.byte 97) (.byte 98)) (.cat (.byte 97) (.byte 99)))) (.byte 100))

theorem compile_sharedStart : compile {} "(ab|ac)d" = .ok sharedStart := by cbv

theorem sharedStartTree_of : sharedStartTree.Of "(ab|ac)d" 1 := by
  have hbyte : ∀ {c : Char}, isWordChar c = true → Spells .term 1 [c] (.byte c.toUInt8) 1 :=
    fun hc => .plain (.byte hc)
  have hab : Spells .branch 1 "ab".toList (.cat (.byte 97) (.byte 98)) 1 :=
    .cat (hbyte rfl) (.last (hbyte rfl))
  have hac : Spells .branch 1 "ac".toList (.cat (.byte 97) (.byte 99)) 1 :=
    .cat (hbyte rfl) (.last (hbyte rfl))
  have hgroup : Spells .primary 0 "(ab|ac)".toList _ 1 := .group (.alt hab (.only hac))
  have hd : Spells .term 1 ['d'] (.byte 100) 1 := hbyte rfl
  exact Spells.only (.cat (.plain hgroup) (.last hd))

theorem isMatch_iff_of_evenGroups_sharedStart : sharedStart.isMatch "acd" = true ↔
    ∃ w ∈ sharedStartTree.language, w <+: "acd".toUTF8.data.toList :=
  (isMatch_iff_of_evenGroups compile_sharedStart).2 sharedStartTree 1 sharedStartTree_of rfl rfl
    "acd"

end PatternEngine

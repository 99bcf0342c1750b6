import PatternEngine.Proofs.Contexts

/-!
# Laws of quantifiers

A repetition ends where a run of its body fails, so running the body once more
from there changes nothing. From this come the laws for a body that is not
nullable: one run and then any number of runs are at least one run, and a
quantifier directly inside another is one quantifier. A nullable body is run
once under every quantifier, so there any two quantifiers are one. The laws
hold in every context, whatever code their two sides get.
-/

namespace PatternEngine
namespace Outcome

variable {size i j : Nat} {run : Nat → Outcome}

/-- Every run that matches moves ahead inside the subject. -/
def Advances (size : Nat) (run : Nat → Outcome) : Prop :=
  ∀ i j, run i = .matched j → i < j ∧ j ≤ size

/-- One run, and then again and again until a run fails. -/
def repeated (size : Nat) (run : Nat → Outcome) (i : Nat) : Outcome :=
  (run i).andThen (greedy size run)

theorem greedy_of_failed (h : run i = .failed) : greedy size run i = .matched i := by
  rw [greedy, h]

theorem greedy_of_aborted (h : run i = .aborted) : greedy size run i = .aborted := by
  rw [greedy, h]

theorem greedy_ne_failed (i : Nat) : greedy size run i ≠ .failed := by
  induction i using greedy.induct size run with
  | case1 i hr => simp [greedy_of_failed hr]
  | case2 i hr => simp [greedy_of_aborted hr]
  | case3 i k hr hik ih => rw [greedy_of_matched hr hik.1 hik.2]; exact ih
  | case4 i k hr hik =>
    rw [greedy, hr]
    simp [hik]

theorem orElse_of_ne_failed {o : Outcome} (h : o ≠ .failed) (other : Outcome) :
    o.orElse other = o := by
  cases o with
  | failed => exact absurd rfl h
  | matched j => rfl
  | aborted => rfl

theorem undoneIf_of_ne_failed {o : Outcome} (h : o ≠ .failed) (fixed : Bool) :
    o.undoneIf fixed = o := by
  cases fixed with
  | true => rfl
  | false => exact orElse_of_ne_failed h _

theorem greedy_unroll (hrun : Advances size run) (i : Nat) :
    greedy size run i = (repeated size run i).orElse (.matched i) := by
  unfold repeated
  cases hr : run i with
  | failed => exact greedy_of_failed hr
  | aborted => exact greedy_of_aborted hr
  | matched j =>
    obtain ⟨hij, hj⟩ := hrun i j hr
    rw [greedy_of_matched hr hij hj]
    exact (orElse_of_ne_failed (greedy_ne_failed j) _).symm

theorem failed_of_greedy (hrun : Advances size run) (h : greedy size run i = .matched j) :
    run j = .failed := by
  induction i using greedy.induct size run with
  | case1 i hr =>
    rw [greedy_of_failed hr] at h
    cases h
    exact hr
  | case2 i hr =>
    rw [greedy_of_aborted hr] at h
    cases h
  | case3 i k hr hik ih =>
    rw [greedy_of_matched hr hik.1 hik.2] at h
    exact ih h
  | case4 i k hr hik => exact absurd (hrun i k hr) hik

theorem Advances.repeated (hrun : Advances size run) : Advances size (repeated size run) := by
  intro i k h
  obtain ⟨j, hj, hk⟩ := andThen_eq_matched h
  obtain ⟨hij, hjsize⟩ := hrun i j hj
  have hbounds := greedy_bounds (fun i j _ h => ⟨(hrun i j h).1.le, (hrun i j h).2⟩) hjsize hk
  omega

theorem repeated_repeated (hrun : Advances size run) (i : Nat) :
    repeated size (repeated size run) i = repeated size run i := by
  rw [repeated]
  cases h : repeated size run i with
  | failed => rfl
  | aborted => rfl
  | matched k =>
    -- the first repetition ended at a failure, so one more run fails there
    obtain ⟨j, -, hk⟩ := andThen_eq_matched h
    have hstop : repeated size run k = .failed := by
      rw [repeated, failed_of_greedy hrun hk]
      rfl
    exact greedy_of_failed hstop

theorem greedy_repeated (hrun : Advances size run) (i : Nat) :
    greedy size (repeated size run) i = greedy size run i := by
  calc greedy size (repeated size run) i
    _ = (repeated size (repeated size run) i).orElse (.matched i) :=
        greedy_unroll hrun.repeated i
    _ = (repeated size run i).orElse (.matched i) := by rw [repeated_repeated hrun]
    _ = greedy size run i := (greedy_unroll hrun i).symm

end Outcome

namespace Expr

open Outcome

variable {subject : Array UInt8} {e : Expr} {i j : Nat}

theorem le_of_eval (h : e.eval subject i = .matched j) : i ≤ j := by
  induction e generalizing i j with
  | any | byte b | oneOf c =>
    obtain ⟨-, rfl⟩ := oneByte_bounds h
    omega
  | group id body ih => exact ih h
  | quantified q body ih =>
    have hrest : ∀ {i j}, greedy subject.size (body.eval subject) i = .matched j → i ≤ j := by
      intro i j hj
      exact greedy_induction (i ≤ ·) (fun k l hk hl => hk.trans (ih hl)) (Nat.le_refl i) hj
    cases q with
    | zeroOrMore =>
      simp only [eval] at h
      split at h
      · rcases orElse_eq_matched h with h | ⟨-, h⟩
        · exact ih h
        · cases h
          exact Nat.le_refl i
      · exact hrest h
    | oneOrMore =>
      simp only [eval] at h
      split at h
      · exact ih h
      · obtain ⟨k, hk, hj⟩ := andThen_eq_matched h
        exact (ih hk).trans (hrest hj)
    | zeroOrOne =>
      rcases orElse_eq_matched h with h | ⟨-, h⟩
      · exact ih h
      · cases h
        exact Nat.le_refl i
  | cat first rest ih₁ ih₂ =>
    obtain ⟨k, hk, hj⟩ := andThen_eq_matched h
    exact (ih₁ hk).trans (ih₂ (undoneIf_eq_matched.mp hj))
  | alt first rest ih₁ ih₂ =>
    rcases orElse_eq_matched h with h | ⟨-, h⟩
    · exact ih₁ h
    · exact ih₂ h

theorem lt_size_of_eval (he : e.nullable = false) (h : e.eval subject i = .matched j) :
    i < subject.size := by
  induction e generalizing i j with
  | any | byte b | oneOf c => exact (oneByte_bounds h).1
  | group id body ih => exact ih he h
  | quantified q body ih =>
    cases q with
    | zeroOrMore | zeroOrOne => cases he
    | oneOrMore =>
      have hbody : body.nullable = false := he
      simp only [eval, hbody, Bool.false_eq_true, if_false] at h
      obtain ⟨k, hk, -⟩ := andThen_eq_matched h
      exact ih hbody hk
  | cat first rest ih₁ ih₂ =>
    obtain ⟨k, hk, hj⟩ := andThen_eq_matched h
    rcases Bool.and_eq_false_iff.mp he with he | he
    · exact ih₁ he hk
    · have hle := le_of_eval hk
      have hlt := ih₂ he (undoneIf_eq_matched.mp hj)
      omega
  | alt first rest ih₁ ih₂ =>
    obtain ⟨he₁, he₂⟩ := Bool.or_eq_false_iff.mp he
    rcases orElse_eq_matched h with h | ⟨-, h⟩
    · exact ih₁ he₁ h
    · exact ih₂ he₂ h

theorem advances_eval (subject : Array UInt8) (he : e.nullable = false) :
    Advances subject.size (e.eval subject) := by
  intro i j h
  have hi := lt_size_of_eval he h
  exact ⟨lt_of_eval he hi.le h, eval_le_size hi.le h⟩

theorem eval_ne_failed (he : e.nullable = true) (i : Nat) : e.eval subject i ≠ .failed := by
  induction e generalizing i with
  | any | byte b | oneOf c => cases he
  | group id body ih => exact ih he i
  | quantified q body ih =>
    have honce : (body.eval subject i).orElse (.matched i) ≠ .failed := by
      cases body.eval subject i <;> simp [orElse]
    cases q with
    | zeroOrMore =>
      simp only [eval]
      split
      · exact honce
      · exact greedy_ne_failed i
    | oneOrMore =>
      have hbody : body.nullable = true := he
      simp only [eval, hbody, if_true]
      exact ih hbody i
    | zeroOrOne => exact honce
  | cat first rest ih₁ ih₂ =>
    obtain ⟨he₁, he₂⟩ := Bool.and_eq_true_iff.mp he
    have hfirst := ih₁ he₁ i
    rw [eval]
    cases hj : first.eval subject i with
    | failed => exact absurd hj hfirst
    | aborted => simp [andThen]
    | matched j =>
      simp only [andThen, undoneIf_of_ne_failed (ih₂ he₂ j)]
      exact ih₂ he₂ j
  | alt first rest ih₁ ih₂ =>
    rw [eval]
    rcases Bool.or_eq_true_iff.mp he with he | he
    · rw [orElse_of_ne_failed (ih₁ he i)]
      exact ih₁ he i
    · cases first.eval subject i with
      | failed => exact ih₂ he i
      | aborted => simp [orElse]
      | matched j => simp [orElse]

theorem eval_oneOrMore (he : e.nullable = false) (subject : Array UInt8) (i : Nat) :
    (quantified .oneOrMore e).eval subject i = repeated subject.size (e.eval subject) i := by
  simp only [eval, he, Bool.false_eq_true, if_false]
  rfl

theorem eval_zeroOrMore_eq_greedy (he : e.nullable = false) (subject : Array UInt8) (i : Nat) :
    (quantified .zeroOrMore e).eval subject i = greedy subject.size (e.eval subject) i := by
  simp only [eval, he, Bool.false_eq_true, if_false]

theorem width_of_nullable (he : e.nullable = true) : e.width = none := by
  cases hw : e.width with
  | none => rfl
  | some w => rw [nullable_of_width hw] at he; cases he

namespace Alike

theorem quantified_of_nullable (q : Quantifier) (he : e.nullable = true) :
    (Expr.quantified q e).Alike e where
  nullable := by cases q <;> simp only [Expr.nullable, he]
  width := (width_of_nullable he).symm
  eval := by
    intro subject i
    have hne : e.eval subject i ≠ .failed := eval_ne_failed he i
    have honce := orElse_of_ne_failed hne (.matched i)
    cases q with
    | zeroOrMore => simp only [Expr.eval, he, if_true, honce]
    | oneOrMore => simp only [Expr.eval, he, if_true]
    | zeroOrOne => exact honce

theorem oneOrMore_unrolled (he : e.nullable = false) :
    (Expr.quantified .oneOrMore e).Alike (.cat e (.quantified .zeroOrMore e)) where
  nullable := by simp only [Expr.nullable, he, Bool.false_and]
  width := by cases hw : e.width <;> simp [Expr.width, hw, widthSum]
  eval := by
    intro subject i
    rw [eval_oneOrMore he]
    refine congrArg (e.eval subject i).andThen (funext fun j => ?_)
    rw [eval_zeroOrMore_eq_greedy he]
    exact (undoneIf_of_ne_failed (greedy_ne_failed j) _).symm

theorem zeroOrOne_oneOrMore (he : e.nullable = false) :
    (Expr.quantified .zeroOrOne (.quantified .oneOrMore e)).Alike (.quantified .zeroOrMore e) where
  nullable := rfl
  width := rfl
  eval := by
    intro subject i
    rw [Expr.eval, eval_oneOrMore he, eval_zeroOrMore_eq_greedy he]
    exact (greedy_unroll (advances_eval subject he) i).symm

theorem zeroOrMore_oneOrMore (he : e.nullable = false) :
    (Expr.quantified .zeroOrMore (.quantified .oneOrMore e)).Alike
      (.quantified .zeroOrMore e) where
  nullable := rfl
  width := rfl
  eval := by
    intro subject i
    have hrun := funext (eval_oneOrMore he subject)
    rw [eval_zeroOrMore_eq_greedy he, eval_zeroOrMore_eq_greedy (by exact he), hrun]
    exact greedy_repeated (advances_eval subject he) i

theorem oneOrMore_oneOrMore (he : e.nullable = false) :
    (Expr.quantified .oneOrMore (.quantified .oneOrMore e)).Alike
      (.quantified .oneOrMore e) where
  nullable := rfl
  width := rfl
  eval := by
    intro subject i
    have hrun := funext (eval_oneOrMore he subject)
    rw [eval_oneOrMore he, eval_oneOrMore (by exact he), hrun]
    exact repeated_repeated (advances_eval subject he) i

end Alike
end Expr

/-! ### Quantifiers directly inside one another -/

/-- The quantifier that stands for one directly inside another. -/
def Quantifier.within : Quantifier → Quantifier → Quantifier
  | .oneOrMore, .oneOrMore => .oneOrMore
  | .oneOrMore, _ => .zeroOrMore
  | inner, _ => inner

theorem Expr.Alike.nested (inner outer : Quantifier) (e : Expr) :
    (Expr.quantified outer (.quantified inner e)).Alike (.quantified (inner.within outer) e) := by
  cases he : e.nullable with
  | true =>
    have hinner := quantified_of_nullable inner he
    have houter := quantified_of_nullable outer (hinner.nullable.trans he)
    exact houter.trans (hinner.trans (quantified_of_nullable _ he).symm)
  | false =>
    cases inner with
    | zeroOrMore | zeroOrOne => exact quantified_of_nullable outer rfl
    | oneOrMore =>
      cases outer with
      | zeroOrMore => exact zeroOrMore_oneOrMore he
      | oneOrMore => exact oneOrMore_oneOrMore he
      | zeroOrOne => exact zeroOrOne_oneOrMore he

/-- A primary with two quantifiers, the inner one in parentheses, becomes the
primary with the one quantifier that stands for both. -/
inductive Collapses : Shape → List Char → List Char → Prop where
  | nested {cs : List Char} (inner outer : Quantifier) (h : Shape.primary.Spelled cs) :
    Collapses .term (parens (cs ++ [inner.symbol]) ++ [outer.symbol])
      (cs ++ [(inner.within outer).symbol])

theorem Collapses.alike {shape : Shape} {cs ds : List Char} (h : Collapses shape cs ds) :
    shape.Alike cs ds := by
  cases h with
  | nested inner outer h =>
    intro n
    obtain ⟨e, m, f, k, he, hf, halike⟩ := h.twice (n + 1) n
    have hinner : Spells .choice (n + 1) _ (.quantified inner e) m :=
      .only (.last (.quantified inner he))
    refine ⟨_, _, _, _, .quantified outer (.group hinner), .quantified _ hf, ?_⟩
    have hbody := (Expr.Alike.refl (.quantified inner e)).grouped (n + 1)
    exact (hbody.symm.quantified outer).trans
      ((Expr.Alike.nested inner outer e).trans (halike.quantified _))

/-- Two quantifiers directly inside one another may be written as the one that
stands for both, in any pattern that compiles on both sides. -/
theorem isMatch_of_collapses {options options' : CompileOptions} {source source' : String}
    {p p' : Pattern} (h : compile options source = .ok p)
    (h' : compile options' source' = .ok p')
    (hreplaces : Replaces Collapses .choice source.toList source'.toList) (subject : String) :
    p.isMatch subject = p'.isMatch subject :=
  isMatch_eq_of_alike h h' (hreplaces.alike fun _ _ _ => Collapses.alike) subject

def nestedLoop : Pattern where
  source := "(a+)*b"
  bytecode := #[15, 1, 1, 97, 8, 12, 0, 0, 0, 10, 1, 97, 8, 11, 255, 255, 255, 248, 14, 1, 16, 1,
    11, 255, 255, 255, 229, 14, 1, 12, 0, 0, 0, 9, 1, 98, 8, 12, 0, 0, 0, 1, 17, 18]
  groups := 1

theorem compile_nestedLoop : compile {} "(a+)*b" = .ok nestedLoop := by cbv

def plainLoop : Pattern where
  source := "a*b"
  bytecode := #[1, 97, 8, 11, 255, 255, 255, 248, 14, 1, 12, 0, 0, 0, 9, 1, 98, 8, 12, 0, 0, 0, 1,
    17, 18]
  groups := 0

theorem compile_plainLoop : compile {} "a*b" = .ok plainLoop := by cbv

theorem isMatch_of_collapses_nestedLoop : nestedLoop.isMatch "aab" = plainLoop.isMatch "aab" := by
  have ha : Shape.primary.Spelled ['a'] := ⟨0, _, _, .byte rfl⟩
  have hb : Shape.branch.Spelled ['b'] := ⟨0, _, _, .last (.plain (.byte rfl))⟩
  have hloop : Replaces Collapses .branch ("(a+)*".toList ++ ['b']) ("a*".toList ++ ['b']) :=
    .terms (.last (.here (.nested .oneOrMore .zeroOrMore ha))) hb
  exact isMatch_of_collapses compile_nestedLoop compile_plainLoop (.only hloop) "aab"

/-! ### One run and then a loop -/

/-- A primary under one or more becomes the primary followed by itself under
zero or more. -/
inductive Unrolls : Shape → List Char → List Char → Prop where
  | oneOrMore {n m : Nat} {cs : List Char} {e : Expr} (h : Spells .primary n cs e m)
      (he : e.nullable = false) :
    Unrolls .branch (cs ++ [Quantifier.oneOrMore.symbol])
      (cs ++ (cs ++ [Quantifier.zeroOrMore.symbol]))

theorem Unrolls.alike {shape : Shape} {cs ds : List Char} (h : Unrolls shape cs ds) :
    shape.Alike cs ds := by
  cases h with
  | oneOrMore h he =>
    -- the second copy of the primary numbers its groups after those of the first
    intro n
    obtain ⟨f, m, hf, hef⟩ := h.renumber n
    obtain ⟨g, k, hg, hfg⟩ := hf.renumber m
    have hnullable : f.nullable = false := hef.nullable.symm.trans he
    refine ⟨_, _, _, _, .last (.quantified .oneOrMore hf),
      .cat (.plain hf) (.last (.quantified .zeroOrMore hg)), ?_⟩
    exact (Expr.Alike.oneOrMore_unrolled hnullable).trans
      ((Expr.Alike.refl f).cat (hfg.quantified .zeroOrMore))

/-- One or more of a primary that is not nullable may be written as the primary
and then zero or more of it, in any pattern that compiles on both sides. -/
theorem isMatch_of_unrolls {options options' : CompileOptions} {source source' : String}
    {p p' : Pattern} (h : compile options source = .ok p)
    (h' : compile options' source' = .ok p')
    (hreplaces : Replaces Unrolls .choice source.toList source'.toList) (subject : String) :
    p.isMatch subject = p'.isMatch subject :=
  isMatch_eq_of_alike h h' (hreplaces.alike fun _ _ _ => Unrolls.alike) subject

def pairs : Pattern where
  source := "(ab)+c"
  bytecode := #[15, 1, 1, 97, 8, 12, 0, 0, 0, 18, 1, 98, 8, 12, 0, 0, 0, 5, 11, 0, 0, 0, 5, 13, 255,
    255, 255, 255, 16, 1, 12, 0, 0, 0, 37, 15, 1, 1, 97, 8, 12, 0, 0, 0, 18, 1, 98, 8, 12, 0, 0, 0,
    5, 11, 0, 0, 0, 5, 13, 255, 255, 255, 255, 16, 1, 11, 255, 255, 255, 221, 14, 1, 12, 0, 0, 0, 9,
    1, 99, 8, 12, 0, 0, 0, 1, 17, 18]
  groups := 1

theorem compile_pairs : compile {} "(ab)+c" = .ok pairs := by cbv

def unrolledPairs : Pattern where
  source := "(ab)(ab)*c"
  bytecode := #[15, 1, 1, 97, 8, 12, 0, 0, 0, 18, 1, 98, 8, 12, 0, 0, 0, 5, 11, 0, 0, 0, 5, 13, 255,
    255, 255, 255, 16, 1, 12, 0, 0, 0, 51, 15, 2, 1, 97, 8, 12, 0, 0, 0, 18, 1, 98, 8, 12, 0, 0, 0,
    5, 11, 0, 0, 0, 5, 13, 255, 255, 255, 255, 16, 2, 11, 255, 255, 255, 221, 14, 1, 12, 0, 0, 0, 9,
    1, 99, 8, 12, 0, 0, 0, 1, 17, 18]
  groups := 2

theorem compile_unrolledPairs : compile {} "(ab)(ab)*c" = .ok unrolledPairs := by cbv

theorem isMatch_of_unrolls_pairs : pairs.isMatch "ababc" = unrolledPairs.isMatch "ababc" := by
  have ha : Spells .term 1 ['a'] (.byte 97) 1 := .plain (.byte rfl)
  have hb : Spells .term 1 ['b'] (.byte 98) 1 := .plain (.byte rfl)
  have hpair : Spells .primary 0 "(ab)".toList (.group 1 (.cat (.byte 97) (.byte 98))) 1 :=
    .group (.only (.cat ha (.last hb)))
  have hc : Shape.branch.Spelled ['c'] := ⟨0, _, _, .last (.plain (.byte rfl))⟩
  have hpairs : Replaces Unrolls .branch ("(ab)+".toList ++ ['c']) ("(ab)(ab)*".toList ++ ['c']) :=
    .terms (.here (.oneOrMore hpair rfl)) hc
  exact isMatch_of_unrolls compile_pairs compile_unrolledPairs (.only hpairs) "ababc"

end PatternEngine

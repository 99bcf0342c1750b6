import PatternEngine.Fragment
import PatternEngine.Proofs.Evaluation

/-!
# Terms of a branch

The terms of an expression are the parts of its concatenation. The evaluator
runs them from left to right, and the code of an expression is laid out as one
branch of the fragments of its terms, or as a choice between the fragments of
its two parts.
-/

namespace PatternEngine
namespace Expr

def terms : Expr → List Expr
  | .cat first rest => first :: rest.terms
  | e => [e]

theorem terms_ne_nil (e : Expr) : e.terms ≠ [] := by
  cases e <;> simp [terms]

/-- Induction where a concatenation is given all of its terms at once, as its
code is put together from theirs. -/
@[elab_as_elim]
theorem induction_on_terms {motive : Expr → Prop} (any : motive .any)
    (byte : ∀ b, motive (.byte b)) (oneOf : ∀ c, motive (.oneOf c))
    (group : ∀ id body, motive body → motive (.group id body))
    (quantified : ∀ q body, motive body → motive (.quantified q body))
    (cat : ∀ first rest, (∀ t ∈ (Expr.cat first rest).terms, motive t) → motive (.cat first rest))
    (alt : ∀ first rest, motive first → motive rest → motive (.alt first rest)) (e : Expr) :
    motive e := by
  have single : ∀ u : Expr, u.terms = [u] → motive u → motive u ∧ ∀ t ∈ u.terms, motive t := by
    intro u hterms hu
    refine ⟨hu, fun t ht => ?_⟩
    rw [hterms, List.mem_singleton] at ht
    rw [ht]
    exact hu
  suffices h : motive e ∧ ∀ t ∈ e.terms, motive t from h.1
  induction e with
  | any => exact single _ rfl any
  | byte b => exact single _ rfl (byte b)
  | oneOf c => exact single _ rfl (oneOf c)
  | group id body ih => exact single _ rfl (group id body ih.1)
  | quantified q body ih => exact single _ rfl (quantified q body ih.1)
  | cat first rest ih₁ ih₂ =>
    have hterms : ∀ t ∈ (Expr.cat first rest).terms, motive t := by
      intro t ht
      rcases List.mem_cons.mp ht with rfl | ht
      · exact ih₁.1
      · exact ih₂.2 t ht
    exact ⟨cat first rest hterms, hterms⟩
  | alt first rest ih₁ ih₂ => exact single _ rfl (alt first rest ih₁.1 ih₂.1)

/-- Runs terms from left to right. A failure can be undone while every term
before it has a width. -/
def evalTerms (subject : Array UInt8) : Bool → List Expr → Nat → Outcome
  | _, [], i => .matched i
  | fixed, t :: ts, i =>
    ((t.eval subject i).undoneIf fixed).andThen
      (evalTerms subject (fixed && t.width.isSome) ts)

theorem undoneIf_eval (subject : Array UInt8) (e : Expr) (fixed : Bool) (i : Nat) :
    (e.eval subject i).undoneIf fixed = evalTerms subject fixed e.terms i := by
  induction e generalizing fixed i with
  | cat first rest ih₁ ih₂ =>
    simp only [eval, terms, evalTerms, Outcome.undoneIf_andThen, Outcome.undoneIf_undoneIf]
    simp only [ih₂]
  | _ => exact (Outcome.andThen_matched _).symm

theorem eval_eq_evalTerms (subject : Array UInt8) (e : Expr) (i : Nat) :
    e.eval subject i = evalTerms subject true e.terms i := undoneIf_eval subject e true i

/-! ### The layout of an expression -/

def branchOf (ts : List Expr) : Branch := (ts.map fragment).foldl Branch.push {}

theorem addTo_earlier (e : Expr) (earlier before : List Fragment) (b : Branch) :
    addTo ⟨earlier ++ before, b⟩ e =
      ⟨(addTo ⟨earlier, b⟩ e).earlier ++ before, (addTo ⟨earlier, b⟩ e).branch⟩ := by
  induction e generalizing earlier b with
  | any | byte b | oneOf c | group id body ih | quantified q body ih => rfl
  | cat first rest ih₁ ih₂ => exact ih₂ _ _
  | alt first rest ih₁ ih₂ =>
    simp only [addTo]
    split
    · exact ih₂ (_ :: earlier) {}
    · rfl

theorem fragment_alt (first rest : Expr) :
    (Expr.alt first rest).fragment = first.fragment.either rest.fragment := by
  have h := addTo_earlier rest [] [first.fragment] {}
  simp only [fragment, addTo, List.isEmpty_nil, if_true]
  rw [show (addTo {} first).close = first.fragment from rfl]
  simp only [List.nil_append] at h
  simp only [h, Choice.close, List.foldl_append, List.foldl_cons, List.foldl_nil]

theorem openCode_alt (first rest : Expr) : (Expr.alt first rest).openCode =
    first.fragment.code ++ (.piece (.jumpIf true rest.openCode.size) ++ rest.openCode) := by
  have h := addTo_earlier rest [] [first.fragment] {}
  simp only [openCode, addTo, List.isEmpty_nil, if_true]
  rw [show (addTo {} first).close = first.fragment from rfl]
  simp only [List.nil_append] at h
  simp only [h, Choice.openCode, List.foldl_append, List.foldl_cons, List.foldl_nil]

theorem addTo_eq_foldl (e : Expr) (c : Choice) (hc : c.branch.terms ≠ []) :
    addTo c e = (e.terms.map fragment).foldl Choice.push c := by
  induction e generalizing c with
  | any | byte b | oneOf cls | group id body ih | quantified q body ih => rfl
  | cat first rest ih₁ ih₂ => exact ih₂ _ (by simp [Choice.push, Branch.push])
  | alt first rest ih₁ ih₂ =>
    simp only [addTo, List.isEmpty_eq_false_iff.mpr hc, Bool.false_eq_true, if_false]
    simp only [terms, List.map_cons, List.map_nil, List.foldl_cons, List.foldl_nil, fragment_alt]
    rfl

theorem foldl_push_branch (fs : List Fragment) (c : Choice) :
    fs.foldl Choice.push c = { c with branch := fs.foldl Branch.push c.branch } := by
  induction fs generalizing c with
  | nil => rfl
  | cons f fs ih => exact ih (c.push f)

theorem addTo_cat (first rest : Expr) :
    addTo {} (.cat first rest) = { branch := branchOf (first :: rest.terms) } := by
  rw [addTo, addTo_eq_foldl _ _ (by simp [Choice.push, Branch.push]), foldl_push_branch]
  rfl

theorem fragment_eq_close (e : Expr) : e.fragment = (branchOf e.terms).close := by
  cases e with
  | cat first rest => rw [fragment, addTo_cat]; rfl
  | _ => rfl

end Expr

theorem widthSum_assoc (a b c : Option Nat) :
    widthSum (widthSum a b) c = widthSum a (widthSum b c) := by
  cases a <;> cases b <;> cases c <;> simp [widthSum, Nat.add_assoc]

theorem zero_widthSum (a : Option Nat) : widthSum (some 0) a = a := by
  cases a <;> simp [widthSum]

theorem isSome_widthSum (a b : Option Nat) : (widthSum a b).isSome = (a.isSome && b.isSome) := by
  cases a <;> cases b <;> rfl

/-- No width is zero, so where only zero is kept nothing is left. -/
theorem filter_zero_of_pos {width : Option Nat} (h : ∀ w, width = some w → 0 < w) :
    width.filter (· == 0) = none := by
  rw [Option.filter_eq_none_iff]
  intro w hw
  rw [beq_iff_eq]
  exact (h w hw).ne'

namespace Branch

theorem close_of_two_le {b : Branch} (h : 2 ≤ b.terms.length) :
    b.close = ⟨guarded b.undo.size b.terms ++ b.undo, b.nullable, b.width⟩ := by
  unfold close
  split
  · rename_i only honly
    rw [honly] at h
    simp at h
  · rfl

/-- The terms that fragments become in a branch, the first in front. -/
def place : Nat → Option Nat → List Fragment → List PlacedTerm
  | _, _, [] => []
  | position, before, f :: fs =>
    ⟨f, position, before⟩ :: place (position + 1) (widthSum before f.width) fs

theorem terms_foldl_push (fs : List Fragment) (b : Branch) :
    (fs.foldl push b).terms = (place b.length b.width fs).reverse ++ b.terms := by
  induction fs generalizing b with
  | nil => rfl
  | cons f fs ih => simp [ih, place, push]

theorem length_place (fs : List Fragment) (position : Nat) (before : Option Nat) :
    (place position before fs).length = fs.length := by
  induction fs generalizing position before with
  | nil => rfl
  | cons f fs ih => simp [place, ih]

end Branch

namespace Expr

theorem terms_branchOf (ts : List Expr) :
    (branchOf ts).terms = (Branch.place 0 (some 0) (ts.map fragment)).reverse := by
  rw [branchOf, Branch.terms_foldl_push]
  exact List.append_nil _

theorem two_le_terms_branchOf {t : Expr} {ts : List Expr} (h : ts ≠ []) :
    2 ≤ (branchOf (t :: ts)).terms.length := by
  have := List.length_pos_iff.mpr h
  simp only [terms_branchOf, List.length_reverse, Branch.length_place, List.length_map,
    List.length_cons]
  omega

def Extends (e : Expr) (b : Branch) : Prop :=
  ((e.terms.map fragment).foldl Branch.push b).nullable = (b.nullable && e.nullable) ∧
    ((e.terms.map fragment).foldl Branch.push b).width = widthSum b.width e.width

theorem extends_of_single {e : Expr} (hterms : e.terms = [e])
    (h : e.fragment.nullable = e.nullable ∧ e.fragment.width = e.width) (b : Branch) :
    e.Extends b := by
  simp [Extends, hterms, Branch.push, h]

theorem quantify_analysis {e : Expr} (q : Quantifier)
    (h : e.fragment.nullable = e.nullable ∧ e.fragment.width = e.width) :
    (e.fragment.quantify q).nullable = (Expr.quantified q e).nullable ∧
      (e.fragment.quantify q).width = (Expr.quantified q e).width := by
  have hkept : e.fragment.width.filter (· == 0) = none := by
    rw [h.2]
    exact filter_zero_of_pos fun _ => pos_of_width
  cases q with
  | zeroOrOne => exact ⟨rfl, hkept⟩
  | zeroOrMore =>
    simp only [Fragment.quantify, Fragment.zeroOrMore]
    split <;> exact ⟨rfl, hkept⟩
  | oneOrMore =>
    simp only [Fragment.quantify, Fragment.oneOrMore, nullable, width, h.1]
    cases hn : e.nullable with
    | false => exact ⟨rfl, rfl⟩
    | true =>
      refine ⟨h.1.trans hn, h.2.trans ?_⟩
      cases hw : e.width with
      | none => rfl
      | some w => rw [nullable_of_width hw] at hn; cases hn

theorem fragment_analysis (e : Expr) :
    (e.fragment.nullable = e.nullable ∧ e.fragment.width = e.width) ∧ ∀ b, e.Extends b := by
  induction e with
  | any | byte b | oneOf c => exact ⟨⟨rfl, rfl⟩, extends_of_single rfl ⟨rfl, rfl⟩⟩
  | group id body ih => exact ⟨ih.1, extends_of_single rfl ih.1⟩
  | quantified q body ih =>
    have h := quantify_analysis q ih.1
    exact ⟨h, extends_of_single rfl h⟩
  | cat first rest ih₁ ih₂ =>
    have hbranch : ∀ b, (Expr.cat first rest).Extends b := by
      intro b
      have h := ih₂.2 (b.push first.fragment)
      rw [Extends, show (b.push first.fragment).nullable = (b.nullable && first.fragment.nullable)
        from rfl, show (b.push first.fragment).width = widthSum b.width first.fragment.width
        from rfl, ih₁.1.1, ih₁.1.2, Bool.and_assoc, widthSum_assoc] at h
      exact h
    refine ⟨?_, hbranch⟩
    rw [fragment_eq_close, terms,
      Branch.close_of_two_le (two_le_terms_branchOf (terms_ne_nil rest))]
    exact ⟨(hbranch {}).1.trans (Bool.true_and _), (hbranch {}).2.trans (zero_widthSum _)⟩
  | alt first rest ih₁ ih₂ =>
    have h : (Expr.alt first rest).fragment.nullable = (Expr.alt first rest).nullable ∧
        (Expr.alt first rest).fragment.width = (Expr.alt first rest).width := by
      simp only [fragment_alt, Fragment.either, nullable, width, ih₁.1, ih₂.1, and_self]
    exact ⟨h, extends_of_single rfl h⟩

theorem nullable_fragment (e : Expr) : e.fragment.nullable = e.nullable := (fragment_analysis e).1.1

theorem width_fragment (e : Expr) : e.fragment.width = e.width := (fragment_analysis e).1.2

end Expr

end PatternEngine

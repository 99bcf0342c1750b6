import Mathlib
import PatternEngine.Expr

/-!
# What an expression does to a subject

The evaluator runs an expression from a position of the subject. It matches up
to some position, fails, or aborts. A failure has consumed nothing, so another
branch or the end of a repetition may follow it. An abort comes from a branch
whose earlier terms consumed an unknown number of bytes and ends the whole
match.

Main statements: a match stays inside the subject and never moves back, it
moves ahead where the expression is not nullable, and by exactly the width
where there is one.
-/

namespace PatternEngine

def ByteRange.contains (r : ByteRange) (b : UInt8) : Bool := r.lo ≤ b && b ≤ r.hi

/-- The bytes of a class: those of some item, or the others if it is negated. -/
def CharClass.contains (c : CharClass) (b : UInt8) : Bool :=
  c.items.any (·.contains b) != c.negated

inductive Outcome where
  | matched (stop : Nat)
  | failed
  | aborted
  deriving DecidableEq, Repr

namespace Outcome

def oneByte (subject : Array UInt8) (holds : UInt8 → Bool) (i : Nat) : Outcome :=
  if subject[i]?.any holds then .matched (i + 1) else .failed

def andThen (o : Outcome) (next : Nat → Outcome) : Outcome :=
  match o with
  | .matched j => next j
  | .failed => .failed
  | .aborted => .aborted

def orElse (o other : Outcome) : Outcome :=
  match o with
  | .failed => other
  | .matched j => .matched j
  | .aborted => .aborted

/-- A failure that can only be undone if what came before has a width. -/
def undoneIf (fixed : Bool) (o : Outcome) : Outcome := if fixed then o else o.orElse .aborted

/-- Runs again and again until a run fails, and matches up to there. A run that
does not move ahead inside the subject is the last. -/
def greedy (size : Nat) (run : Nat → Outcome) (i : Nat) : Outcome :=
  match run i with
  | .failed => .matched i
  | .aborted => .aborted
  | .matched j => if i < j ∧ j ≤ size then greedy size run j else .matched j
termination_by size - i

theorem oneByte_eq_matched {subject : Array UInt8} {holds : UInt8 → Bool} {i j : Nat}
    (h : oneByte subject holds i = .matched j) :
    j = i + 1 ∧ ∃ b, subject[i]? = some b ∧ holds b = true := by
  unfold oneByte at h
  split at h
  · rename_i hb
    cases h
    exact ⟨rfl, (Option.any_eq_true _ _).mp hb⟩
  · cases h

theorem oneByte_bounds {subject : Array UInt8} {holds : UInt8 → Bool} {i j : Nat}
    (h : oneByte subject holds i = .matched j) : i < subject.size ∧ j = i + 1 := by
  obtain ⟨hj, b, hget, -⟩ := oneByte_eq_matched h
  exact ⟨(Array.getElem?_eq_some_iff.mp hget).1, hj⟩

theorem andThen_eq_matched {o : Outcome} {next : Nat → Outcome} {j : Nat}
    (h : o.andThen next = .matched j) : ∃ k, o = .matched k ∧ next k = .matched j := by
  cases o with
  | matched k => exact ⟨k, rfl, h⟩
  | failed => cases h
  | aborted => cases h

theorem orElse_eq_matched {o other : Outcome} {j : Nat} (h : o.orElse other = .matched j) :
    o = .matched j ∨ o = .failed ∧ other = .matched j := by
  cases o with
  | matched k => exact .inl h
  | failed => exact .inr ⟨rfl, h⟩
  | aborted => cases h

theorem undoneIf_eq_matched {fixed : Bool} {o : Outcome} {j : Nat} :
    o.undoneIf fixed = .matched j ↔ o = .matched j := by
  cases fixed <;> cases o <;> simp [undoneIf, orElse]

theorem undoneIf_undoneIf (o : Outcome) (a b : Bool) :
    (o.undoneIf a).undoneIf b = o.undoneIf (b && a) := by
  cases a <;> cases b <;> cases o <;> rfl

theorem undoneIf_andThen (o : Outcome) (next : Nat → Outcome) (fixed : Bool) :
    (o.andThen next).undoneIf fixed =
      (o.undoneIf fixed).andThen fun j => (next j).undoneIf fixed := by
  cases fixed <;> cases o <;> rfl

theorem andThen_matched (o : Outcome) : o.andThen .matched = o := by
  cases o <;> rfl

theorem andThen_assoc (o : Outcome) (next after : Nat → Outcome) :
    (o.andThen next).andThen after = o.andThen fun j => (next j).andThen after := by
  cases o <;> rfl

theorem orElse_assoc (o other last : Outcome) :
    (o.orElse other).orElse last = o.orElse (other.orElse last) := by
  cases o <;> rfl

theorem greedy_of_matched {size i j : Nat} {run : Nat → Outcome} (hrun : run i = .matched j)
    (hij : i < j) (hj : j ≤ size) : greedy size run i = greedy size run j := by
  rw [greedy, hrun]
  simp only [hij, hj, and_self, if_true]

theorem greedy_induction {size : Nat} {run : Nat → Outcome} (P : Nat → Prop)
    (hrun : ∀ i j, P i → run i = .matched j → P j) {i j : Nat} (hi : P i)
    (h : greedy size run i = .matched j) : P j := by
  induction i using greedy.induct size run with
  | case1 i hr =>
    rw [greedy, hr] at h
    cases h
    exact hi
  | case2 i hr =>
    rw [greedy, hr] at h
    cases h
  | case3 i k hr hik ih =>
    rw [greedy_of_matched hr hik.1 hik.2] at h
    exact ih (hrun i k hi hr) h
  | case4 i k hr hik =>
    rw [greedy, hr] at h
    simp only [if_neg hik] at h
    cases h
    exact hrun i j hi hr

theorem greedy_bounds {size : Nat} {run : Nat → Outcome}
    (hrun : ∀ i j, i ≤ size → run i = .matched j → i ≤ j ∧ j ≤ size) {i j : Nat}
    (hi : i ≤ size) (h : greedy size run i = .matched j) : i ≤ j ∧ j ≤ size := by
  refine greedy_induction (fun k => i ≤ k ∧ k ≤ size) ?_ ⟨Nat.le_refl i, hi⟩ h
  intro k l hk hl
  have := hrun k l hk.2 hl
  omega

end Outcome

theorem widthSum_eq_some {a b : Option Nat} {w : Nat} :
    widthSum a b = some w ↔ ∃ x y, a = some x ∧ b = some y ∧ w = x + y := by
  cases a <;> cases b <;> simp [widthSum, eq_comm]

theorem widthJoin_eq_some {a b : Option Nat} {w : Nat} :
    widthJoin a b = some w ↔ a = some w ∧ b = some w := by
  unfold widthJoin
  split <;> grind

namespace Expr

open Outcome

/-- Runs an expression from a position. A failing term of a concatenation fails
where every term before it has a width, and aborts otherwise. -/
def eval (subject : Array UInt8) : Expr → Nat → Outcome
  | .any, i => oneByte subject (fun _ => true) i
  | .byte b, i => oneByte subject (· == b) i
  | .oneOf c, i => oneByte subject c.contains i
  | .group _ body, i => body.eval subject i
  | .quantified .zeroOrOne body, i => (body.eval subject i).orElse (.matched i)
  | .quantified .zeroOrMore body, i =>
    if body.nullable then (body.eval subject i).orElse (.matched i)
    else greedy subject.size (body.eval subject) i
  | .quantified .oneOrMore body, i =>
    if body.nullable then body.eval subject i
    else (body.eval subject i).andThen (greedy subject.size (body.eval subject))
  | .cat first rest, i =>
    (first.eval subject i).andThen fun j => (rest.eval subject j).undoneIf first.width.isSome
  | .alt first rest, i => (first.eval subject i).orElse (rest.eval subject i)

variable {subject : Array UInt8}

theorem eval_bounds {e : Expr} {i j : Nat} (hi : i ≤ subject.size)
    (h : e.eval subject i = .matched j) : i ≤ j ∧ j ≤ subject.size := by
  induction e generalizing i j with
  | any | byte b | oneOf c =>
    obtain ⟨hlt, rfl⟩ := oneByte_bounds h
    omega
  | group id body ih => exact ih hi h
  | quantified q body ih =>
    cases q with
    | zeroOrMore =>
      simp only [eval] at h
      split at h
      · rcases orElse_eq_matched h with h | ⟨-, h⟩
        · exact ih hi h
        · cases h
          exact ⟨Nat.le_refl i, hi⟩
      · exact greedy_bounds (fun _ _ => ih) hi h
    | oneOrMore =>
      simp only [eval] at h
      split at h
      · exact ih hi h
      · obtain ⟨k, hk, hj⟩ := andThen_eq_matched h
        have hfirst := ih hi hk
        have hrest := greedy_bounds (fun _ _ => ih) hfirst.2 hj
        omega
    | zeroOrOne =>
      rcases orElse_eq_matched h with h | ⟨-, h⟩
      · exact ih hi h
      · cases h
        exact ⟨Nat.le_refl i, hi⟩
  | cat first rest ih₁ ih₂ =>
    obtain ⟨k, hk, hj⟩ := andThen_eq_matched h
    have hfirst := ih₁ hi hk
    have hrest := ih₂ hfirst.2 (undoneIf_eq_matched.mp hj)
    omega
  | alt first rest ih₁ ih₂ =>
    rcases orElse_eq_matched h with h | ⟨-, h⟩
    · exact ih₁ hi h
    · exact ih₂ hi h

theorem eval_le_size {e : Expr} {i j : Nat} (hi : i ≤ subject.size)
    (h : e.eval subject i = .matched j) : j ≤ subject.size := (eval_bounds hi h).2

theorem lt_of_eval {e : Expr} (he : e.nullable = false) {i j : Nat} (hi : i ≤ subject.size)
    (h : e.eval subject i = .matched j) : i < j := by
  induction e generalizing i j with
  | any | byte b | oneOf c =>
    obtain ⟨hlt, rfl⟩ := oneByte_bounds h
    omega
  | group id body ih => exact ih he hi h
  | quantified q body ih =>
    cases q with
    | zeroOrMore | zeroOrOne => cases he
    | oneOrMore =>
      have hbody : body.nullable = false := he
      simp only [eval, hbody, Bool.false_eq_true, if_false] at h
      obtain ⟨k, hk, hj⟩ := andThen_eq_matched h
      have hfirst := ih hbody hi hk
      have hrest := greedy_bounds (fun _ _ => eval_bounds) (eval_le_size hi hk) hj
      omega
  | cat first rest ih₁ ih₂ =>
    obtain ⟨k, hk, hj⟩ := andThen_eq_matched h
    have hfirst := eval_bounds hi hk
    have hrest := eval_bounds hfirst.2 (undoneIf_eq_matched.mp hj)
    rcases Bool.and_eq_false_iff.mp he with he | he
    · have := ih₁ he hi hk
      omega
    · have := ih₂ he hfirst.2 (undoneIf_eq_matched.mp hj)
      omega
  | alt first rest ih₁ ih₂ =>
    obtain ⟨he₁, he₂⟩ := Bool.or_eq_false_iff.mp he
    rcases orElse_eq_matched h with h | ⟨-, h⟩
    · exact ih₁ he₁ hi h
    · exact ih₂ he₂ hi h

/-- The guard of a repetition never ends it: while the body matches, the
repetition goes on from where it stopped. -/
theorem eval_zeroOrMore {body : Expr} (hbody : body.nullable = false) {i j : Nat}
    (hi : i ≤ subject.size) (h : body.eval subject i = .matched j) :
    (Expr.quantified .zeroOrMore body).eval subject i =
      (Expr.quantified .zeroOrMore body).eval subject j := by
  simp only [eval, hbody, Bool.false_eq_true, if_false]
  exact greedy_of_matched h (lt_of_eval hbody hi h) (eval_le_size hi h)

/-- A width is the number of bytes that every match consumes. -/
theorem eq_add_of_eval {e : Expr} {w : Nat} (hw : e.width = some w) {i j : Nat}
    (h : e.eval subject i = .matched j) : j = i + w := by
  induction e generalizing w i j with
  | any | byte b | oneOf c =>
    cases hw
    exact (oneByte_bounds h).2
  | group id body ih => exact ih hw h
  | quantified q body ih => cases hw
  | cat first rest ih₁ ih₂ =>
    obtain ⟨a, b, ha, hb, rfl⟩ := widthSum_eq_some.mp hw
    obtain ⟨k, hk, hj⟩ := andThen_eq_matched h
    have hfirst := ih₁ ha hk
    have hrest := ih₂ hb (undoneIf_eq_matched.mp hj)
    omega
  | alt first rest ih₁ ih₂ =>
    obtain ⟨ha, hb⟩ := widthJoin_eq_some.mp hw
    rcases orElse_eq_matched h with h | ⟨-, h⟩
    · exact ih₁ ha h
    · exact ih₂ hb h

theorem pos_of_width {e : Expr} {w : Nat} (hw : e.width = some w) : 0 < w := by
  induction e generalizing w with
  | any | byte b | oneOf c =>
    cases hw
    exact Nat.one_pos
  | group id body ih => exact ih hw
  | quantified q body ih => cases hw
  | cat first rest ih₁ ih₂ =>
    obtain ⟨a, b, ha, hb, rfl⟩ := widthSum_eq_some.mp hw
    exact Nat.add_pos_left (ih₁ ha) b
  | alt first rest ih₁ ih₂ => exact ih₁ (widthJoin_eq_some.mp hw).1

theorem nullable_of_width {e : Expr} {w : Nat} (hw : e.width = some w) : e.nullable = false := by
  induction e generalizing w with
  | any | byte b | oneOf c => rfl
  | group id body ih => exact ih hw
  | quantified q body ih => cases hw
  | cat first rest ih₁ ih₂ =>
    obtain ⟨a, b, ha, hb, rfl⟩ := widthSum_eq_some.mp hw
    simp only [nullable, ih₁ ha, Bool.false_and]
  | alt first rest ih₁ ih₂ =>
    obtain ⟨ha, hb⟩ := widthJoin_eq_some.mp hw
    simp only [nullable, ih₁ ha, ih₂ hb, Bool.or_self]

end Expr

end PatternEngine

import PatternEngine.Proofs.Evaluation

/-!
# The regular language of an expression

The classical reading of an expression as a set of words over bytes. The
evaluator is sound for it: what a match consumes is a word of the language. It
is not complete, because a branch or a repetition that has matched is never
taken back.
-/

open Computability
namespace PatternEngine

def byteWords (holds : UInt8 → Bool) : Language UInt8 := {w | ∃ b, holds b = true ∧ w = [b]}

namespace Expr

def language : Expr → Language UInt8
  | .any => byteWords fun _ => true
  | .byte b => byteWords (· == b)
  | .oneOf c => byteWords c.contains
  | .group _ body => body.language
  | .quantified .zeroOrMore body => body.language∗
  | .quantified .oneOrMore body => body.language * body.language∗
  | .quantified .zeroOrOne body => 1 + body.language
  | .cat first rest => first.language * rest.language
  | .alt first rest => first.language + rest.language

end Expr

/-- Some word of a language leads from one position of a subject to another. -/
def Spans (l : Language UInt8) (subject : Array UInt8) (i j : Nat) : Prop :=
  ∃ w ∈ l, subject.toList.drop i = w ++ subject.toList.drop j

namespace Spans

variable {l m : Language UInt8} {subject : Array UInt8} {i j k : Nat}

theorem refl (h : [] ∈ l) : Spans l subject i i := ⟨[], h, rfl⟩

theorem mono (hlm : l ≤ m) (h : Spans l subject i j) : Spans m subject i j := by
  obtain ⟨w, hw, hdrop⟩ := h
  exact ⟨w, hlm hw, hdrop⟩

theorem mul (h₁ : Spans l subject i j) (h₂ : Spans m subject j k) :
    Spans (l * m) subject i k := by
  obtain ⟨v, hv, hi⟩ := h₁
  obtain ⟨w, hw, hj⟩ := h₂
  refine ⟨v ++ w, Language.append_mem_mul hv hw, ?_⟩
  rw [hi, hj, List.append_assoc]

theorem ofByte {holds : UInt8 → Bool} (h : Outcome.oneByte subject holds i = .matched j) :
    Spans (byteWords holds) subject i j := by
  obtain ⟨rfl, b, hget, hb⟩ := Outcome.oneByte_eq_matched h
  obtain ⟨hlt, rfl⟩ := Array.getElem?_eq_some_iff.mp hget
  refine ⟨[subject[i]], ⟨_, hb, rfl⟩, ?_⟩
  rw [List.drop_eq_getElem_cons (by simpa using hlt)]
  simp

theorem ofGreedy {size : Nat} {run : Nat → Outcome}
    (hrun : ∀ i j, run i = .matched j → Spans l subject i j)
    (h : Outcome.greedy size run i = .matched j) : Spans l∗ subject i j := by
  refine Outcome.greedy_induction (fun k => Spans l∗ subject i k) ?_
    (refl (Language.nil_mem_kstar l)) h
  intro k n hk hn
  exact (hk.mul (hrun k n hn)).mono kstar_mul_le_kstar

theorem exists_word (h : Spans l subject 0 j) : ∃ w ∈ l, w <+: subject.toList := by
  obtain ⟨w, hw, hdrop⟩ := h
  exact ⟨w, hw, _, hdrop.symm⟩

end Spans

namespace Expr

/-- What a match consumes is a word of the language. -/
theorem spans_of_eval {e : Expr} {subject : Array UInt8} {i j : Nat}
    (h : e.eval subject i = .matched j) : Spans e.language subject i j := by
  induction e generalizing i j with
  | any | byte b | oneOf c => exact .ofByte h
  | group id body ih => exact ih h
  | quantified q body ih =>
    cases q with
    | zeroOrMore =>
      simp only [eval] at h
      split at h
      · rcases Outcome.orElse_eq_matched h with h | ⟨-, h⟩
        · exact (ih h).mono le_kstar
        · cases h
          exact .refl (Language.nil_mem_kstar _)
      · exact .ofGreedy (fun _ _ => ih) h
    | oneOrMore =>
      simp only [eval] at h
      split at h
      · have hnil : Spans body.language∗ subject j j := .refl (Language.nil_mem_kstar _)
        exact (ih h).mul hnil
      · obtain ⟨k, hk, hj⟩ := Outcome.andThen_eq_matched h
        exact (ih hk).mul (.ofGreedy (fun _ _ => ih) hj)
    | zeroOrOne =>
      rcases Outcome.orElse_eq_matched h with h | ⟨-, h⟩
      · exact (ih h).mono le_sup_right
      · cases h
        exact .refl (Or.inl rfl)
  | cat first rest ih₁ ih₂ =>
    obtain ⟨k, hk, hj⟩ := Outcome.andThen_eq_matched h
    exact (ih₁ hk).mul (ih₂ (Outcome.undoneIf_eq_matched.mp hj))
  | alt first rest ih₁ ih₂ =>
    rcases Outcome.orElse_eq_matched h with h | ⟨-, h⟩
    · exact (ih₁ h).mono le_sup_left
    · exact (ih₂ h).mono le_sup_right

end Expr

end PatternEngine

import PatternEngine.Proofs.Branches

/-!
# Whole programs

The last branch of a whole pattern is left open: a failure there rejects the
subject, so nothing has to be undone and an abort is as good as a failure. What
follows the code accepts or rejects by the flag, and a program therefore ends
as the evaluator says, at its accept or at its fail.
-/

namespace PatternEngine
open Machine

/-- How control leaves code after which nothing is left to try. -/
def Outcome.Decided (code subject : Array UInt8) (failAt stop : Nat) (s : State) : Outcome → Prop
  | .matched j => j ≤ subject.size ∧ Path code subject s ⟨stop, j, true⟩
  | .failed | .aborted =>
    ∃ pc j, (pc = stop ∨ pc = failAt) ∧ j ≤ subject.size ∧ Path code subject s ⟨pc, j, false⟩

namespace Outcome.Decided

variable {code subject : Array UInt8} {failAt middle stop i : Nat} {s t : State} {o next : Outcome}

theorem of_reject (ho : ∀ j, o ≠ .matched j) (hi : i ≤ subject.size)
    (hpath : Path code subject s ⟨failAt, i, false⟩) : o.Decided code subject failAt stop s := by
  cases o with
  | matched j => exact absurd rfl (ho j)
  | failed | aborted => exact ⟨failAt, i, .inr rfl, hi, hpath⟩

theorem of_path (hpath : Path code subject s t) (h : o.Decided code subject failAt stop t) :
    o.Decided code subject failAt stop s := by
  cases o with
  | matched j => exact ⟨h.1, hpath.trans h.2⟩
  | failed | aborted =>
    obtain ⟨pc, j, hpc, hj, hmore⟩ := h
    exact ⟨pc, j, hpc, hj, hpath.trans hmore⟩

theorem of_leaves (h : o.Leaves code subject failAt stop i s) (hi : i ≤ subject.size) :
    o.Decided code subject failAt stop s := by
  cases o with
  | matched j => exact h
  | failed => exact ⟨stop, i, .inl rfl, hi, h⟩
  | aborted =>
    obtain ⟨j, hj, hpath⟩ := h
    exact of_reject (fun _ => nofun) hj hpath

theorem after (h : o.Leaves code subject failAt middle i s)
    (hmatched : ∀ j ≤ subject.size, o = .matched j →
      next.Decided code subject failAt stop ⟨middle, j, true⟩)
    (hfailed : o = .failed → next.Decided code subject failAt stop ⟨middle, i, false⟩)
    (haborted : o = .aborted → ∀ j, next ≠ .matched j) :
    next.Decided code subject failAt stop s := by
  cases o with
  | matched j => exact of_path h.2 (hmatched j h.1 rfl)
  | failed => exact of_path h (hfailed rfl)
  | aborted =>
    obtain ⟨j, hj, hpath⟩ := h
    exact of_reject (haborted rfl) hj hpath

end Outcome.Decided

def Code.Decides (c : Code) (subject : Array UInt8) (run : Nat → Outcome) : Prop :=
  ∀ ⦃code : Array UInt8⦄ ⦃failAt pc : Nat⦄, c.StandsAt code failAt pc →
    ∀ ⦃i : Nat⦄, i ≤ subject.size → ∀ flag,
      (run i).Decided code subject failAt (pc + c.size) ⟨pc, i, flag⟩

theorem Code.Runs.decides {c : Code} {subject : Array UInt8} {run : Nat → Outcome}
    (h : c.Runs subject run) : c.Decides subject run :=
  fun _ _ _ hstands _ hi flag => .of_leaves (h hstands hi flag) hi

/-! ### Open branches -/

namespace Branch

theorem openCode_single {b : Branch} {t : PlacedTerm} (hb : b.terms = [t]) :
    b.openCode = t.fragment.code := by
  rw [openCode, hb]
  rfl

/-- An open branch runs its first term and rejects, or goes on with the branch of
the terms after it. -/
theorem exists_openCode_cons {b : Branch} {f : Fragment} {fs : List Fragment} {position : Nat}
    {before : Option Nat} (hb : b.terms = (place position before (f :: fs)).reverse)
    (hfs : fs ≠ []) : ∃ rest : Branch,
      rest.terms = (place (position + 1) (widthSum before f.width) fs).reverse ∧
        b.openCode = f.code ++ (.piece .rejectUnlessFlag ++ rest.openCode) := by
  let rest : Branch := { terms := (place (position + 1) (widthSum before f.width) fs).reverse }
  have hne : (place (position + 1) (widthSum before f.width) fs).reverse ≠ [] := by
    rw [Ne, List.reverse_eq_nil_iff, ← List.length_eq_zero_iff, length_place,
      List.length_eq_zero_iff]
    exact hfs
  obtain ⟨last, earlier, hlast⟩ := List.exists_cons_of_ne_nil hne
  have hrest : rest.terms = last :: earlier := hlast
  rw [place, List.reverse_cons, hlast] at hb
  refine ⟨rest, rfl, ?_⟩
  simp only [openCode, hb, hrest, List.cons_append, List.foldl_append]
  rfl

end Branch

namespace Expr

theorem openTerms_induction {motive : Code → Prop} {ts : List Expr} (hts : ts ≠ []) {b : Branch}
    {position : Nat} {before : Option Nat}
    (hb : b.terms = (Branch.place position before (ts.map fragment)).reverse)
    (fragment : ∀ e : Expr, motive e.fragment.code)
    (reject : ∀ c d, motive c → motive d → motive (c ++ (.piece .rejectUnlessFlag ++ d))) :
    motive b.openCode := by
  induction ts generalizing b position before with
  | nil => exact absurd rfl hts
  | cons t ts ih =>
    by_cases hlast : ts = []
    · subst hlast
      rw [Branch.openCode_single hb]
      exact fragment t
    · obtain ⟨rest, hrest, hcode⟩ :=
        Branch.exists_openCode_cons hb (List.map_eq_nil_iff.not.mpr hlast)
      rw [hcode]
      exact reject _ _ (fragment t) (ih hlast hrest)

/-- What holds of the code of every expression, and is kept when code follows
after a rejection or after a skip, holds of code that is left open. -/
theorem openCode_induction {motive : Code → Prop} (fragment : ∀ e : Expr, motive e.fragment.code)
    (reject : ∀ c d, motive c → motive d → motive (c ++ (.piece .rejectUnlessFlag ++ d)))
    (skip : ∀ c d, motive c → motive d → motive (c ++ (.piece (.jumpIf true d.size) ++ d)))
    (e : Expr) : motive e.openCode := by
  have whole : ∀ u : Expr, u.openCode = u.fragment.code → motive u.openCode := by
    intro u hcode
    rw [hcode]
    exact fragment u
  induction e with
  | any | byte b | oneOf c | group id body | quantified q body => exact whole _ rfl
  | cat first rest =>
    rw [openCode, addTo_cat]
    exact openTerms_induction (List.cons_ne_nil _ _) (terms_branchOf _) fragment reject
  | alt first rest ih₁ ih₂ =>
    rw [openCode_alt]
    exact skip _ _ (fragment first) ih₂

variable {subject : Array UInt8}

theorem openTerms_decides {ts : List Expr} (hts : ts ≠ []) {b : Branch} {position : Nat}
    {before : Option Nat}
    (hb : b.terms = (Branch.place position before (ts.map fragment)).reverse) (fixed : Bool) :
    b.openCode.Decides subject (evalTerms subject fixed ts) := by
  induction ts generalizing b position before fixed with
  | nil => exact absurd rfl hts
  | cons t ts ih =>
    intro code failAt pc h i hi flag
    by_cases hlast : ts = []
    · subst hlast
      rw [Branch.openCode_single hb] at h ⊢
      have hrun := t.fragment_runs h hi flag
      apply Outcome.Decided.after hrun
      · intro j hj ho
        rw [evalTerms, ho, Outcome.undoneIf_eq_matched.mpr rfl]
        exact ⟨hj, .refl⟩
      · intro ho
        rw [evalTerms, ho]
        cases fixed <;> exact ⟨_, i, .inl rfl, hi, .refl⟩
      · intro ho j
        rw [evalTerms, ho]
        cases fixed <;> rintro ⟨⟩
    · obtain ⟨rest, hterms, hcode⟩ :=
        Branch.exists_openCode_cons hb (List.map_eq_nil_iff.not.mpr hlast)
      rw [hcode] at h ⊢
      obtain ⟨hterm, hmore⟩ := Code.standsAt_append.mp h
      obtain ⟨hreject, hrest⟩ := Code.standsAt_append.mp hmore
      rw [Code.size_append, Code.size_append, ← Nat.add_assoc, ← Nat.add_assoc]
      have hrun := t.fragment_runs hterm hi flag
      apply Outcome.Decided.after hrun
      · intro j hj ho
        rw [evalTerms, ho, Outcome.undoneIf_eq_matched.mpr rfl, Outcome.andThen]
        apply Outcome.Decided.of_path (path_no_reject hreject hj)
        exact ih hlast hterms _ hrest hj true
      · intro ho
        rw [evalTerms, ho]
        apply Outcome.Decided.of_reject _ hi (path_reject hreject hi)
        intro j
        cases fixed <;> rintro ⟨⟩
      · intro ho j
        rw [evalTerms, ho]
        cases fixed <;> rintro ⟨⟩

theorem openCode_decides (e : Expr) : e.openCode.Decides subject (e.eval subject) := by
  have closed : ∀ e : Expr, e.openCode = e.fragment.code →
      e.openCode.Decides subject (e.eval subject) := by
    intro e hcode
    rw [hcode]
    exact e.fragment_runs.decides
  induction e with
  | any | byte b | oneOf c | group id body | quantified q body => exact closed _ rfl
  | cat first rest =>
    rw [openCode, addTo_cat, funext (eval_eq_evalTerms subject (.cat first rest))]
    exact openTerms_decides (List.cons_ne_nil _ _) (terms_branchOf _) true
  | alt first rest ih₁ ih₂ =>
    intro code failAt pc h i hi flag
    rw [openCode_alt] at h ⊢
    obtain ⟨hfirst, hmore⟩ := Code.standsAt_append.mp h
    obtain ⟨hjump, hrest⟩ := Code.standsAt_append.mp hmore
    rw [Code.size_append, Code.size_append, ← Nat.add_assoc, ← Nat.add_assoc]
    have hrun := first.fragment_runs hfirst hi flag
    apply Outcome.Decided.after hrun
    · intro j hj ho
      rw [eval, ho]
      exact ⟨hj, path_jump hjump hj⟩
    · intro ho
      rw [eval, ho]
      apply Outcome.Decided.of_path (path_no_jump hjump (by decide) hi)
      exact ih₂ hrest hi false
    · intro ho j
      rw [eval, ho]
      rintro ⟨⟩

end Expr

/-! ### Layouts -/

def Outcome.verdict : Outcome → Verdict
  | .matched _ => .accepted
  | .failed | .aborted => .rejected

namespace Layout

variable {limit : Nat} {code : Array UInt8}

theorem empty_ends (h : Layout.empty.assemble limit = .ok code) (subject : Array UInt8) :
    ∃ t, Ends code subject {} t .accepted := by
  obtain ⟨hb, i, hi, hdecode⟩ := Code.standsAt_piece.mp (standsAt_of_assemble h)
  cases hi
  exact ⟨{}, .refl, ⟨hb, Nat.zero_le _⟩, .inl ⟨hdecode, rfl⟩⟩

/-- The program of an expression ends as the evaluator says. -/
theorem ofExpr_ends {e : Expr} (h : (Layout.ofExpr e).assemble limit = .ok code)
    (subject : Array UInt8) : ∃ t, Ends code subject {} t (e.eval subject 0).verdict := by
  obtain ⟨hbody, hfail⟩ := Code.standsAt_append.mp (standsAt_of_assemble h)
  obtain ⟨hopen, hmore⟩ := Code.standsAt_append.mp hbody
  obtain ⟨hreject, haccept⟩ := Code.standsAt_append.mp hmore
  rw [Nat.zero_add] at hfail
  obtain ⟨hbfail, i, hi, hdfail⟩ := Code.standsAt_piece.mp hfail
  cases hi
  obtain ⟨hbaccept, i, hi, hdaccept⟩ := Code.standsAt_piece.mp haccept
  cases hi
  have hrun := e.openCode_decides hopen (Nat.zero_le subject.size) false
  have rejected : ∀ pc j, (pc = 0 + e.openCode.size ∨ pc = (Layout.ofExpr e).failAt) →
      j ≤ subject.size → Path code subject {} ⟨pc, j, false⟩ →
        ∃ t, Ends code subject {} t .rejected := by
    rintro pc j (rfl | rfl) hj hpath
    · exact ⟨_, hpath.trans (path_reject hreject hj), ⟨hbfail, hj⟩, .inr ⟨hdfail, rfl⟩⟩
    · exact ⟨_, hpath, ⟨hbfail, hj⟩, .inr ⟨hdfail, rfl⟩⟩
  cases ho : e.eval subject 0 with
  | matched j =>
    rw [ho] at hrun
    have hpath := hrun.2.trans (path_no_reject hreject hrun.1)
    exact ⟨_, hpath, ⟨hbaccept, hrun.1⟩, .inl ⟨hdaccept, rfl⟩⟩
  | failed | aborted =>
    rw [ho] at hrun
    obtain ⟨pc, j, hpc, hj, hpath⟩ := hrun
    exact rejected pc j hpc hj hpath

end Layout

end PatternEngine

import PatternEngine.Proofs.ByteTests
import PatternEngine.Proofs.Terms

/-!
# Code of a whole expression

A failing term of a branch leaves the cursor past the start of the branch by
the widths of the terms before it. Its exit jumps to the handler that steps
back by just that much, so the branch as a whole fails where it started. The
machine therefore runs through the code of every expression as the evaluator
says.
-/

namespace PatternEngine
open Machine

namespace Branch

variable {code subject : Array UInt8} {failAt pc i start undoSize : Nat}

/-! ### Handlers -/

def counts (ps : List PlacedTerm) : List Nat :=
  ps.filterMap fun t => if t.position = 0 then none else t.before

theorem handlers_cons (count : Nat) (rest : List Nat) :
    handlers (count :: rest).reverse =
      if (handlers rest.reverse).size = 0 then .piece (.rewind count)
      else .piece (.rewind count) ++
        (.piece (.jumpIf false (handlers rest.reverse).size) ++ handlers rest.reverse) := by
  rw [List.reverse_cons, handlers, List.foldl_append]
  rfl

theorem size_handlers_eq_zero {cs : List Nat} : (handlers cs.reverse).size = 0 ↔ cs = [] := by
  cases cs with
  | nil => exact ⟨fun _ => rfl, fun _ => rfl⟩
  | cons count rest =>
    have hpos : 0 < (Code.piece (.rewind count)).size := Nat.succ_pos 4
    rw [handlers_cons]
    split
    · simp only [reduceCtorEq, iff_false]
      omega
    · simp only [Code.size_append, reduceCtorEq, iff_false]
      omega

theorem handlers_path {cs : List Nat} {k count : Nat} (hcount : cs[k]? = some count)
    (h : (handlers cs.reverse).StandsAt code failAt pc) (hi : i + count ≤ subject.size) :
    Path code subject ⟨pc + jumpWidth * (2 * k), i + count, false⟩
      ⟨pc + (handlers cs.reverse).size, i, false⟩ := by
  induction cs generalizing pc k with
  | nil => cases hcount
  | cons c cs ih =>
    rw [handlers_cons] at h ⊢
    by_cases hlast : cs = []
    · rw [if_pos (size_handlers_eq_zero.mpr hlast)] at h ⊢
      subst hlast
      obtain rfl : k = 0 := by
        have := (List.getElem?_eq_some_iff.mp hcount).1
        simpa using this
      cases hcount
      exact path_rewind h hi
    · rw [if_neg (size_handlers_eq_zero.not.mpr hlast)] at h ⊢
      obtain ⟨hback, hmore⟩ := Code.standsAt_append.mp h
      obtain ⟨hjump, hrest⟩ := Code.standsAt_append.mp hmore
      rw [Code.size_append, Code.size_append, ← Nat.add_assoc, ← Nat.add_assoc]
      cases k with
      | zero =>
        cases hcount
        have hi' : i ≤ subject.size := by omega
        exact (path_rewind hback hi).trans (path_jump hjump hi')
      | succ k =>
        have hpc : pc + jumpWidth * (2 * (k + 1)) =
            pc + jumpWidth + jumpWidth + jumpWidth * (2 * k) := by
          simp only [jumpWidth]
          omega
        rw [hpc]
        exact ih hcount hrest

theorem before_eq_none {fs : List Fragment} {position : Nat} {t : PlacedTerm}
    (ht : t ∈ place position none fs) : t.before = none := by
  induction fs generalizing position with
  | nil => cases ht
  | cons f fs ih =>
    rcases List.mem_cons.mp ht with rfl | ht
    · rfl
    · exact ih ht

theorem position_le {fs : List Fragment} {position : Nat} {before : Option Nat} {t : PlacedTerm}
    (ht : t ∈ place position before fs) : position ≤ t.position := by
  induction fs generalizing position before with
  | nil => cases ht
  | cons f fs ih =>
    rcases List.mem_cons.mp ht with rfl | ht
    · exact Nat.le_refl _
    · exact Nat.le_of_succ_le (ih ht)

theorem counts_place {fs : List Fragment} {position w : Nat} {before : Option Nat}
    {t : PlacedTerm} (ht : t ∈ place (position + 1) before fs) (hw : t.before = some w) :
    ∃ k, t.position = position + k + 1 ∧
      (counts (place (position + 1) before fs))[k]? = some w := by
  induction fs generalizing position before with
  | nil => cases ht
  | cons f fs ih =>
    cases before with
    | none =>
      rw [before_eq_none ht] at hw
      cases hw
    | some v =>
      have hcounts : counts (place (position + 1) (some v) (f :: fs)) =
          v :: counts (place (position + 2) (widthSum (some v) f.width) fs) := rfl
      rw [hcounts]
      rcases List.mem_cons.mp ht with rfl | ht
      · exact ⟨0, rfl, hw⟩
      · obtain ⟨k, hk, hget⟩ := ih ht
        exact ⟨k + 1, by omega, hget⟩

theorem getElem?_counts {fs : List Fragment} {t : PlacedTerm} {q w : Nat}
    (ht : t ∈ place 0 (some 0) fs) (hq : t.position = q + 1) (hw : t.before = some w) :
    (counts (place 0 (some 0) fs))[q]? = some w := by
  cases fs with
  | nil => cases ht
  | cons f fs =>
    rcases List.mem_cons.mp ht with rfl | ht
    · cases hq
    · obtain ⟨k, hk, hget⟩ := counts_place ht hw
      obtain rfl : k = q := by omega
      exact hget

theorem undo_eq {b : Branch} {fs : List Fragment}
    (hb : b.terms = (place 0 (some 0) fs).reverse) : b.undo =
      if counts (place 0 (some 0) fs) = [] then .nil
      else .piece (.jumpIf true (handlers (counts (place 0 (some 0) fs)).reverse).size) ++
        handlers (counts (place 0 (some 0) fs)).reverse := by
  have hrewinds : b.rewinds = (counts (place 0 (some 0) fs)).reverse := by
    rw [rewinds, hb, List.filterMap_reverse, counts]
  simp only [undo, hrewinds, List.isEmpty_iff, List.reverse_eq_nil_iff]

/-- What code from `middle` to `stop` does for placed terms: a success goes
through, and a failure that enters at the handler of a term goes back to where
the branch started. The first term needs no handler. -/
structure Undoes (code subject : Array UInt8) (middle stop start : Nat) (ps : List PlacedTerm) :
    Prop where
  skip : ∀ j ≤ subject.size, Path code subject ⟨middle, j, true⟩ ⟨stop, j, true⟩
  back : ∀ t ∈ ps, ∀ q w, t.position = q + 1 → t.before = some w → start + w ≤ subject.size →
    Path code subject ⟨middle + jumpWidth * (2 * q + 1), start + w, false⟩ ⟨stop, start, false⟩
  first : ∀ t ∈ ps, t.position = 0 → t.before = some 0

theorem Undoes.mono {middle stop : Nat} {ps qs : List PlacedTerm}
    (h : Undoes code subject middle stop start ps) (hqs : ∀ t ∈ qs, t ∈ ps) :
    Undoes code subject middle stop start qs :=
  ⟨h.skip, fun t ht => h.back t (hqs t ht), fun t ht => h.first t (hqs t ht)⟩

theorem undo_undoes {b : Branch} {fs : List Fragment}
    (hb : b.terms = (place 0 (some 0) fs).reverse) (h : b.undo.StandsAt code failAt pc) :
    Undoes code subject pc (pc + b.undo.size) start (place 0 (some 0) fs) := by
  refine ⟨?_, ?_, ?_⟩
  · intro j hj
    rw [undo_eq hb] at h ⊢
    split_ifs at h ⊢
    · exact Relation.ReflTransGen.refl
    · obtain ⟨hjump, -⟩ := Code.standsAt_append.mp h
      rw [Code.size_append, ← Nat.add_assoc]
      exact path_jump hjump hj
  · intro t ht q w hq hw hsize
    have hget := getElem?_counts ht hq hw
    have hne : counts (place 0 (some 0) fs) ≠ [] := by
      intro hnil
      rw [hnil] at hget
      cases hget
    rw [undo_eq hb, if_neg hne] at h ⊢
    obtain ⟨-, hhandlers⟩ := Code.standsAt_append.mp h
    have hpc : pc + jumpWidth * (2 * q + 1) = pc + jumpWidth + jumpWidth * (2 * q) := by
      simp only [jumpWidth]
      omega
    rw [hpc, Code.size_append, ← Nat.add_assoc]
    exact handlers_path hget hhandlers hsize
  · intro t ht hposition
    obtain ⟨f, fs, rfl⟩ := List.exists_cons_of_ne_nil (show fs ≠ [] by rintro rfl; cases ht)
    rcases List.mem_cons.mp ht with rfl | ht
    · rfl
    · have := position_le ht
      omega

/-! ### Terms and their exits -/

theorem guarded_cons (t : PlacedTerm) (ps : List PlacedTerm) :
    guarded undoSize (t :: ps).reverse = t.fragment.code ++
      (.piece (exit undoSize (guarded undoSize ps.reverse).size t) ++
        guarded undoSize ps.reverse) := by
  rw [List.reverse_cons, guarded, List.foldl_append]
  rfl

theorem width_exit (undoSize ahead : Nat) (t : PlacedTerm) :
    (exit undoSize ahead t).width = jumpWidth := by
  unfold exit
  split <;> rfl

section
variable {ahead : Nat} {t : PlacedTerm} {ps : List PlacedTerm}

theorem exit_pass (h : (Code.piece (exit undoSize ahead t)).StandsAt code failAt pc)
    (hi : i ≤ subject.size) : Path code subject ⟨pc, i, true⟩ ⟨pc + jumpWidth, i, true⟩ := by
  unfold exit at h
  split at h
  · exact path_no_jump h (by decide) hi
  · exact path_no_jump h (by decide) hi
  · exact path_no_reject h hi

theorem exit_undo {w : Nat} (h : (Code.piece (exit undoSize ahead t)).StandsAt code failAt pc)
    (hundo : Undoes code subject (pc + jumpWidth + ahead) (pc + jumpWidth + ahead + undoSize)
      start ps) (ht : t ∈ ps) (hw : t.before = some w) (hi : start + w ≤ subject.size) :
    Path code subject ⟨pc, start + w, false⟩
      ⟨pc + jumpWidth + ahead + undoSize, start, false⟩ := by
  unfold exit at h
  split at h
  · rename_i hposition
    have hzero := hundo.first t ht hposition
    cases hw.symm.trans hzero
    rw [Nat.add_assoc _ ahead]
    exact path_jump h hi
  · rename_i q v hposition hv
    refine Relation.ReflTransGen.trans (path_jump h hi) ?_
    rw [← Nat.add_assoc]
    exact hundo.back t ht q w hposition hw hi
  · rename_i hnone
    rw [hnone] at hw
    cases hw

theorem exit_reject (h : (Code.piece (exit undoSize ahead t)).StandsAt code failAt pc)
    (hposition : t.position ≠ 0) (hnone : t.before = none) (hi : i ≤ subject.size) :
    Path code subject ⟨pc, i, false⟩ ⟨failAt, i, false⟩ := by
  unfold exit at h
  split at h
  · contradiction
  · rename_i hsome
    rw [hnone] at hsome
    cases hsome
  · exact path_reject h hi

end

/-- The terms of a branch from some position on. What the terms before them
have consumed is known exactly while each of those has a width. -/
theorem guarded_leaves {ts : List Expr} {position : Nat} {before : Option Nat}
    {stop middle c : Nat} {flag : Bool}
    (hruns : ∀ t ∈ ts, t.fragment.code.Runs subject (t.eval subject))
    (h : (guarded undoSize (place position before (ts.map Expr.fragment)).reverse).StandsAt
      code failAt pc)
    (hmiddle : middle =
      pc + (guarded undoSize (place position before (ts.map Expr.fragment)).reverse).size)
    (hstop : stop = middle + undoSize)
    (hundo : Undoes code subject middle stop start (place position before (ts.map Expr.fragment)))
    (hbefore : ∀ w, before = some w → c = start + w) (hflag : ts = [] → flag = true)
    (hc : c ≤ subject.size) :
    (Expr.evalTerms subject before.isSome ts c).Leaves code subject failAt stop start
      ⟨pc, c, flag⟩ := by
  -- `hbefore` ties the cursor to the known widths; it is all the induction carries
  induction ts generalizing position before pc c flag with
  | nil =>
    obtain rfl := hflag rfl
    obtain rfl : middle = pc := hmiddle
    exact ⟨hc, hundo.skip c hc⟩
  | cons t ts ih =>
    rw [List.map_cons, place] at h hmiddle hundo
    rw [guarded_cons] at h hmiddle
    obtain ⟨hterm, hmore⟩ := Code.standsAt_append.mp h
    obtain ⟨hexit, hrest⟩ := Code.standsAt_append.mp hmore
    have hwidth : ∀ ahead u, (Code.piece (exit undoSize ahead u)).size = jumpWidth :=
      width_exit undoSize
    simp only [Code.size_append, hwidth, ← Nat.add_assoc] at hmiddle hrest
    subst hstop
    have hrun := hruns t (List.mem_cons_self ..) hterm hc flag
    apply hrun.followed
    · intro j hj ho
      have hnext : (widthSum before t.fragment.width).isSome =
          (before.isSome && t.width.isSome) := by
        rw [isSome_widthSum, Expr.width_fragment]
      rw [Expr.evalTerms, Outcome.undoneIf_eq_matched.mpr ho, Outcome.andThen, ← hnext]
      refine .of_path (exit_pass hexit hj) (ih ?_ hrest hmiddle ?_ ?_ (fun _ => rfl) hj)
      · exact fun u hu => hruns u (List.mem_cons_of_mem t hu)
      · exact hundo.mono fun u hu => List.mem_cons_of_mem _ hu
      · intro w hw
        obtain ⟨x, y, hx, hy, rfl⟩ := widthSum_eq_some.mp hw
        rw [Expr.width_fragment] at hy
        rw [Expr.eq_add_of_eval hy ho, hbefore x hx, Nat.add_assoc]
    · intro ho
      rw [Expr.evalTerms, ho]
      cases hb : before with
      | some w =>
        obtain rfl := hbefore w hb
        rw [hmiddle] at hundo ⊢
        exact exit_undo hexit hundo (List.mem_cons_self ..) hb hc
      | none =>
        have hposition : position ≠ 0 := by
          intro hzero
          have := hundo.first _ (List.mem_cons_self ..) hzero
          rw [hb] at this
          cases this
        exact ⟨c, hc, exit_reject hexit hposition hb hc⟩
    · intro ho
      rw [Expr.evalTerms, ho]
      cases before <;> rfl

end Branch

namespace Expr

variable {subject : Array UInt8}

theorem branch_runs {t : Expr} {ts : List Expr} (hts : ts ≠ [])
    (hruns : ∀ u ∈ t :: ts, u.fragment.code.Runs subject (u.eval subject)) :
    (branchOf (t :: ts)).close.code.Runs subject (evalTerms subject true (t :: ts)) := by
  intro code failAt pc h i hi flag
  have hterms := terms_branchOf (t :: ts)
  rw [Branch.close_of_two_le (two_le_terms_branchOf hts)] at h ⊢
  obtain ⟨hguarded, hundo⟩ := Code.standsAt_append.mp h
  rw [Code.size_append, ← Nat.add_assoc]
  rw [hterms] at hguarded hundo ⊢
  have hback : Branch.Undoes code subject _ _ i _ := Branch.undo_undoes hterms hundo
  refine Branch.guarded_leaves hruns hguarded rfl rfl hback ?_ (fun hnil => nomatch hnil) hi
  intro w hw
  cases hw
  rfl

theorem fragment_runs (e : Expr) : e.fragment.code.Runs subject (e.eval subject) := by
  induction e using induction_on_terms with
  | any => exact Fragment.oneByte_runs (Code.plain_tests rfl)
  | byte b => exact Fragment.oneByte_runs (Code.plain_tests rfl)
  | oneOf c => exact Fragment.oneByte_runs c.tests_tests
  | group id body ih => exact Fragment.inGroup_runs ih
  | quantified q body ih =>
    have hahead : body.fragment.nullable = false → ∀ i j, i ≤ subject.size →
        body.eval subject i = .matched j → i < j := by
      intro hbody i j hi hj
      rw [nullable_fragment] at hbody
      exact lt_of_eval hbody hi hj
    cases q with
    | zeroOrOne => exact Fragment.zeroOrOne_runs ih
    | zeroOrMore =>
      have h := Fragment.zeroOrMore_runs ih hahead
      rw [nullable_fragment] at h
      exact h
    | oneOrMore =>
      have h := Fragment.oneOrMore_runs ih hahead
      rw [nullable_fragment] at h
      exact h
  | cat first rest ih =>
    have h := branch_runs (terms_ne_nil rest) ih
    rw [fragment_eq_close, funext (eval_eq_evalTerms subject (.cat first rest))]
    exact h
  | alt first rest ih₁ ih₂ =>
    rw [fragment_alt]
    exact Fragment.either_runs ih₁ ih₂

end Expr

end PatternEngine

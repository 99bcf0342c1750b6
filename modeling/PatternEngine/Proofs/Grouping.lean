import PatternEngine.Proofs.Contexts

/-!
# Parentheses do not matter

A group is like its body in every context, and so are neighbouring terms and
neighbouring branches in a group of their own. So one more pair of parentheses
around a primary, around neighbouring terms or around neighbouring branches
gives a pattern that matches the same subjects, whatever numbers its groups get.
-/

namespace PatternEngine

/-- `Wraps shape cs ds`: one more pair of parentheses in `cs` gives `ds`. The
pair stands around a whole primary, term, branch or choice, around the first
terms of a branch or around the first branches of a choice. What stands before
it is passed by `catRest` and `altRest`, and the other rules lead inside. -/
inductive Wraps : Shape → List Char → List Char → Prop where
  | whole {shape : Shape} {cs : List Char} (h : shape.Spelled cs) : Wraps shape cs (parens cs)
  | terms {cs ds : List Char} (h : Shape.branch.Spelled cs) (hrest : Shape.branch.Spelled ds) :
    Wraps .branch (cs ++ ds) (parens cs ++ ds)
  | branches {cs ds : List Char} (h : Shape.choice.Spelled cs) (hrest : Shape.choice.Spelled ds) :
    Wraps .choice (cs ++ '|' :: ds) (parens cs ++ '|' :: ds)
  | group {cs ds : List Char} (h : Wraps .choice cs ds) : Wraps .primary (parens cs) (parens ds)
  | plain {cs ds : List Char} (h : Wraps .primary cs ds) : Wraps .term cs ds
  | quantified {cs ds : List Char} (q : Quantifier) (h : Wraps .primary cs ds) :
    Wraps .term (cs ++ [q.symbol]) (ds ++ [q.symbol])
  | last {cs ds : List Char} (h : Wraps .term cs ds) : Wraps .branch cs ds
  | catFirst {cs ds us : List Char} (h : Wraps .term cs ds) (hrest : Shape.branch.Spelled us) :
    Wraps .branch (cs ++ us) (ds ++ us)
  | catRest {cs ds us : List Char} (hfirst : Shape.term.Spelled us) (h : Wraps .branch cs ds) :
    Wraps .branch (us ++ cs) (us ++ ds)
  | only {cs ds : List Char} (h : Wraps .branch cs ds) : Wraps .choice cs ds
  | altFirst {cs ds us : List Char} (h : Wraps .branch cs ds) (hrest : Shape.choice.Spelled us) :
    Wraps .choice (cs ++ '|' :: us) (ds ++ '|' :: us)
  | altRest {cs ds us : List Char} (hfirst : Shape.branch.Spelled us) (h : Wraps .choice cs ds) :
    Wraps .choice (us ++ '|' :: cs) (us ++ '|' :: ds)

theorem Wraps.exists_alike {shape : Shape} {cs ds : List Char} (h : Wraps shape cs ds) :
    shape.Alike cs ds := by
  induction h with
  | whole h => exact .inParens h
  | terms h hrest => exact (Shape.Alike.inParens h).terms hrest
  | branches h hrest => exact (Shape.Alike.inParens h).branches hrest
  | group _ ih => exact ih.group
  | plain _ ih => exact ih.plain
  | quantified q _ ih => exact ih.quantified q
  | last _ ih => exact ih.last
  | catFirst _ hrest ih => exact ih.last.terms hrest
  | catRest hfirst _ ih => exact ih.catRest hfirst
  | only _ ih => exact ih.only
  | altFirst _ hrest ih => exact ih.only.branches hrest
  | altRest hfirst _ ih => exact ih.altRest hfirst

/-- A pattern with one more pair of parentheses matches the same subjects. -/
theorem isMatch_of_wraps {options options' : CompileOptions} {source source' : String}
    {p p' : Pattern} (h : compile options source = .ok p)
    (h' : compile options' source' = .ok p')
    (hwraps : Wraps .choice source.toList source'.toList) (subject : String) :
    p.isMatch subject = p'.isMatch subject := by
  obtain ⟨e, m, f, k, he, hf, halike⟩ := hwraps.exists_alike 0
  have htree : Tree.Of source m (some e) := he
  have htree' : Tree.Of source' k (some f) := hf
  rw [isMatch_eq h htree, isMatch_eq h' htree']
  simp only [Tree.eval, halike.eval]

def groupedPairLoop : Pattern where
  source := "((ab)*c)"
  bytecode := #[15, 1, 15, 2, 1, 97, 8, 12, 0, 0, 0, 18, 1, 98, 8, 12, 0, 0, 0, 5, 11, 0, 0, 0, 5,
    13, 255, 255, 255, 255, 16, 2, 11, 255, 255, 255, 221, 14, 1, 12, 0, 0, 0, 8, 1, 99, 8, 12, 0,
    0, 0, 8, 16, 1, 12, 0, 0, 0, 1, 17, 18]
  groups := 2

theorem compile_groupedPairLoop : compile {} "((ab)*c)" = .ok groupedPairLoop := by cbv

theorem isMatch_of_wraps_pairLoop : pairLoop.isMatch "abac" = groupedPairLoop.isMatch "abac" := by
  have hspelled : Shape.choice.Spelled "(ab)*c".toList := ⟨0, _, 1, pairLoopTree_of⟩
  exact isMatch_of_wraps compile_pairLoop compile_groupedPairLoop (.whole hspelled) "abac"

end PatternEngine

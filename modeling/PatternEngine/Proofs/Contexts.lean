import PatternEngine.Proofs.Matching
import PatternEngine.Proofs.Terms

/-!
# What no context can tell apart

Two expressions are alike when they agree in what they do, in their width and
in whether they are nullable. A group is like its body, concatenations and
alternations may be nested to either side, and every context keeps the
likeness. Two texts are alike when they spell such expressions from any number
of groups on. So a rule that replaces texts by texts like them may be used
anywhere in a pattern, and the pattern still matches the same subjects.
-/

namespace PatternEngine

structure Expr.Alike (e f : Expr) : Prop where
  nullable : e.nullable = f.nullable
  width : e.width = f.width
  eval : ∀ subject i, e.eval subject i = f.eval subject i

namespace Expr.Alike

variable {e f g e' f' : Expr}

theorem refl (e : Expr) : e.Alike e := ⟨rfl, rfl, fun _ _ => rfl⟩

theorem symm (h : e.Alike f) : f.Alike e :=
  ⟨h.nullable.symm, h.width.symm, fun subject i => (h.eval subject i).symm⟩

theorem trans (h : e.Alike f) (h' : f.Alike g) : e.Alike g :=
  ⟨h.nullable.trans h'.nullable, h.width.trans h'.width,
    fun subject i => (h.eval subject i).trans (h'.eval subject i)⟩

theorem group (h : e.Alike f) (n k : Nat) : (Expr.group n e).Alike (.group k f) :=
  ⟨h.nullable, h.width, h.eval⟩

theorem grouped (h : e.Alike f) (n : Nat) : e.Alike (.group n f) := ⟨h.nullable, h.width, h.eval⟩

theorem quantified (q : Quantifier) (h : e.Alike f) :
    (Expr.quantified q e).Alike (.quantified q f) where
  nullable := by cases q <;> simp only [Expr.nullable, h.nullable]
  width := rfl
  eval := by
    intro subject i
    have hrun : e.eval subject = f.eval subject := funext (h.eval subject)
    cases q <;> simp only [Expr.eval, h.nullable, hrun]

theorem cat (h : e.Alike f) (h' : e'.Alike f') : (Expr.cat e e').Alike (.cat f f') where
  nullable := by simp only [Expr.nullable, h.nullable, h'.nullable]
  width := by simp only [Expr.width, h.width, h'.width]
  eval := by simp only [Expr.eval, h.eval, h'.eval, h.width, implies_true]

theorem alt (h : e.Alike f) (h' : e'.Alike f') : (Expr.alt e e').Alike (.alt f f') where
  nullable := by simp only [Expr.nullable, h.nullable, h'.nullable]
  width := by simp only [Expr.width, h.width, h'.width]
  eval := by simp only [Expr.eval, h.eval, h'.eval, implies_true]

/-- A failing term can be undone where all terms before it have a width, on
whichever side the terms are nested. -/
theorem cat_assoc (e f g : Expr) : (Expr.cat e (.cat f g)).Alike (.cat (.cat e f) g) where
  nullable := (Bool.and_assoc ..).symm
  width := (widthSum_assoc ..).symm
  eval := by
    intro subject i
    simp only [Expr.eval, Expr.width, isSome_widthSum, Outcome.undoneIf_andThen,
      Outcome.undoneIf_undoneIf, Outcome.andThen_assoc]

theorem alt_assoc (e f g : Expr) : (Expr.alt e (.alt f g)).Alike (.alt (.alt e f) g) where
  nullable := (Bool.or_assoc ..).symm
  width := by
    simp only [Expr.width, widthJoin]
    grind
  eval := by
    intro subject i
    simp only [Expr.eval, Outcome.orElse_assoc]

end Expr.Alike

/-! ### What is spelled from any number of groups on -/

namespace Spells

variable {shape : Shape} {n m k : Nat} {cs ds : List Char} {e f : Expr}

theorem renumber (h : Spells shape n cs e m) (k : Nat) :
    ∃ f r, Spells shape k cs f r ∧ e.Alike f := by
  induction h generalizing k with
  | byte hc => exact ⟨_, _, .byte hc, .refl _⟩
  | any => exact ⟨_, _, .any, .refl _⟩
  | oneOf hbody hc => exact ⟨_, _, .oneOf hbody hc, .refl _⟩
  | group _ ih =>
    obtain ⟨f, r, hf, halike⟩ := ih (k + 1)
    exact ⟨_, _, .group hf, halike.group ..⟩
  | plain _ ih =>
    obtain ⟨f, r, hf, halike⟩ := ih k
    exact ⟨f, r, .plain hf, halike⟩
  | quantified q _ ih =>
    obtain ⟨f, r, hf, halike⟩ := ih k
    exact ⟨_, _, .quantified q hf, halike.quantified q⟩
  | last _ ih =>
    obtain ⟨f, r, hf, halike⟩ := ih k
    exact ⟨f, r, .last hf, halike⟩
  | cat _ _ ih₁ ih₂ =>
    obtain ⟨f₁, r₁, hf₁, halike₁⟩ := ih₁ k
    obtain ⟨f₂, r₂, hf₂, halike₂⟩ := ih₂ r₁
    exact ⟨_, _, .cat hf₁ hf₂, halike₁.cat halike₂⟩
  | only _ ih =>
    obtain ⟨f, r, hf, halike⟩ := ih k
    exact ⟨f, r, .only hf, halike⟩
  | alt _ _ ih₁ ih₂ =>
    obtain ⟨f₁, r₁, hf₁, halike₁⟩ := ih₁ k
    obtain ⟨f₂, r₂, hf₂, halike₂⟩ := ih₂ r₁
    exact ⟨_, _, .alt hf₁ hf₂, halike₁.alt halike₂⟩

theorem choice (h : Spells shape n cs e m) : Spells .choice n cs e m := by
  cases shape with
  | primary => exact .only (.last (.plain h))
  | term => exact .only (.last h)
  | branch => exact .only h
  | choice => exact h

theorem of_primary (h : Spells .primary n cs e m) : Spells shape n cs e m := by
  cases shape with
  | primary => exact h
  | term => exact .plain h
  | branch => exact .last (.plain h)
  | choice => exact .only (.last (.plain h))

theorem branch_append (he : Spells .branch n cs e m) (hf : Spells .branch m ds f k) :
    ∃ g, Spells .branch n (cs ++ ds) g k ∧ g.Alike (.cat e f) := by
  generalize hshape : Shape.branch = shape at he
  induction he with
  | last ht => cases hshape; exact ⟨_, .cat ht hf, .refl _⟩
  | @cat _ _ _ _ _ t rest ht _ _ ih =>
    obtain ⟨g, hg, halike⟩ := ih hf rfl
    rw [List.append_assoc]
    exact ⟨_, .cat ht hg, ((Expr.Alike.refl t).cat halike).trans (.cat_assoc ..)⟩
  | _ => cases hshape

theorem choice_append (he : Spells .choice n cs e m) (hf : Spells .choice m ds f k) :
    ∃ g, Spells .choice n (cs ++ '|' :: ds) g k ∧ g.Alike (.alt e f) := by
  generalize hshape : Shape.choice = shape at he
  induction he with
  | only hb => exact ⟨_, .alt hb hf, .refl _⟩
  | @alt _ _ _ _ _ b rest hb _ _ ih =>
    obtain ⟨g, hg, halike⟩ := ih hf rfl
    rw [List.append_assoc]
    exact ⟨_, .alt hb hg, ((Expr.Alike.refl b).alt halike).trans (.alt_assoc ..)⟩
  | _ => cases hshape

end Spells

def Shape.Spelled (shape : Shape) (cs : List Char) : Prop := ∃ n e m, Spells shape n cs e m

def parens (cs : List Char) : List Char := '(' :: (cs ++ [')'])

/-- The numbers of the groups of a text say nothing about what it does. -/
theorem Shape.Spelled.twice {shape : Shape} {cs : List Char} (h : shape.Spelled cs) (n k : Nat) :
    ∃ e m f r, Spells shape n cs e m ∧ Spells shape k cs f r ∧ e.Alike f := by
  obtain ⟨_, g, _, hg⟩ := h
  obtain ⟨e, m, he, hge⟩ := hg.renumber n
  obtain ⟨f, r, hf, hgf⟩ := hg.renumber k
  exact ⟨e, m, f, r, he, hf, hge.symm.trans hgf⟩

/-! ### Texts that are alike -/

/-- Two texts of one shape that spell expressions that are alike, whatever
number the groups in them start from. -/
def Shape.Alike (shape : Shape) (cs ds : List Char) : Prop :=
  ∀ n, ∃ e m f k, Spells shape n cs e m ∧ Spells shape n ds f k ∧ e.Alike f

namespace Shape.Alike

variable {shape : Shape} {cs ds us : List Char}

theorem inParens (h : shape.Spelled cs) : shape.Alike cs (parens cs) := by
  intro n
  -- inside the pair every group has a number one higher
  obtain ⟨e, m, f, k, he, hf, halike⟩ := h.twice n (n + 1)
  exact ⟨_, _, _, _, he, .of_primary (.group hf.choice), halike.grouped _⟩

theorem group (h : Shape.choice.Alike cs ds) :
    Shape.primary.Alike (parens cs) (parens ds) := by
  intro n
  obtain ⟨e, m, f, k, he, hf, halike⟩ := h (n + 1)
  exact ⟨_, _, _, _, .group he, .group hf, halike.group ..⟩

theorem plain (h : Shape.primary.Alike cs ds) : Shape.term.Alike cs ds := by
  intro n
  obtain ⟨e, m, f, k, he, hf, halike⟩ := h n
  exact ⟨e, m, f, k, .plain he, .plain hf, halike⟩

theorem quantified (q : Quantifier) (h : Shape.primary.Alike cs ds) :
    Shape.term.Alike (cs ++ [q.symbol]) (ds ++ [q.symbol]) := by
  intro n
  obtain ⟨e, m, f, k, he, hf, halike⟩ := h n
  exact ⟨_, _, _, _, .quantified q he, .quantified q hf, halike.quantified q⟩

theorem last (h : Shape.term.Alike cs ds) : Shape.branch.Alike cs ds := by
  intro n
  obtain ⟨e, m, f, k, he, hf, halike⟩ := h n
  exact ⟨e, m, f, k, .last he, .last hf, halike⟩

theorem terms (h : Shape.branch.Alike cs ds) (hrest : Shape.branch.Spelled us) :
    Shape.branch.Alike (cs ++ us) (ds ++ us) := by
  intro n
  obtain ⟨e, m, f, k, he, hf, halike⟩ := h n
  obtain ⟨e', _, f', _, he', hf', halike'⟩ := hrest.twice m k
  -- the two runs may differ in their number of terms, so the rest is nested anew in both
  obtain ⟨g, hg, hflat⟩ := he.branch_append he'
  obtain ⟨g', hg', hflat'⟩ := hf.branch_append hf'
  exact ⟨_, _, _, _, hg, hg', hflat.trans ((halike.cat halike').trans hflat'.symm)⟩

theorem catRest (hfirst : Shape.term.Spelled us) (h : Shape.branch.Alike cs ds) :
    Shape.branch.Alike (us ++ cs) (us ++ ds) := by
  intro n
  obtain ⟨t, r, _, _, ht, -, -⟩ := hfirst.twice n n
  obtain ⟨e, m, f, k, he, hf, halike⟩ := h r
  exact ⟨_, _, _, _, .cat ht he, .cat ht hf, (Expr.Alike.refl t).cat halike⟩

theorem only (h : Shape.branch.Alike cs ds) : Shape.choice.Alike cs ds := by
  intro n
  obtain ⟨e, m, f, k, he, hf, halike⟩ := h n
  exact ⟨e, m, f, k, .only he, .only hf, halike⟩

theorem branches (h : Shape.choice.Alike cs ds) (hrest : Shape.choice.Spelled us) :
    Shape.choice.Alike (cs ++ '|' :: us) (ds ++ '|' :: us) := by
  intro n
  obtain ⟨e, m, f, k, he, hf, halike⟩ := h n
  obtain ⟨e', _, f', _, he', hf', halike'⟩ := hrest.twice m k
  obtain ⟨g, hg, hflat⟩ := he.choice_append he'
  obtain ⟨g', hg', hflat'⟩ := hf.choice_append hf'
  exact ⟨_, _, _, _, hg, hg', hflat.trans ((halike.alt halike').trans hflat'.symm)⟩

theorem altRest (hfirst : Shape.branch.Spelled us) (h : Shape.choice.Alike cs ds) :
    Shape.choice.Alike (us ++ '|' :: cs) (us ++ '|' :: ds) := by
  intro n
  obtain ⟨t, r, _, _, ht, -, -⟩ := hfirst.twice n n
  obtain ⟨e, m, f, k, he, hf, halike⟩ := h r
  exact ⟨_, _, _, _, .alt ht he, .alt ht hf, (Expr.Alike.refl t).alt halike⟩

end Shape.Alike

/-! ### Replacing a part of a pattern -/

/-- `Replaces rule shape cs ds`: using `rule` on one part of the text `cs` of a
shape gives `ds`. The other rules follow the grammar down to that part. `terms`
and `branches` pass what follows a run of the first terms of a branch or of the
first branches of a choice, `catRest` and `altRest` pass what stands before. -/
inductive Replaces (rule : Shape → List Char → List Char → Prop) :
    Shape → List Char → List Char → Prop where
  | here {shape : Shape} {cs ds : List Char} (h : rule shape cs ds) : Replaces rule shape cs ds
  | group {cs ds : List Char} (h : Replaces rule .choice cs ds) :
    Replaces rule .primary (parens cs) (parens ds)
  | plain {cs ds : List Char} (h : Replaces rule .primary cs ds) : Replaces rule .term cs ds
  | quantified {cs ds : List Char} (q : Quantifier) (h : Replaces rule .primary cs ds) :
    Replaces rule .term (cs ++ [q.symbol]) (ds ++ [q.symbol])
  | last {cs ds : List Char} (h : Replaces rule .term cs ds) : Replaces rule .branch cs ds
  | terms {cs ds us : List Char} (h : Replaces rule .branch cs ds)
      (hrest : Shape.branch.Spelled us) : Replaces rule .branch (cs ++ us) (ds ++ us)
  | catRest {cs ds us : List Char} (hfirst : Shape.term.Spelled us)
      (h : Replaces rule .branch cs ds) : Replaces rule .branch (us ++ cs) (us ++ ds)
  | only {cs ds : List Char} (h : Replaces rule .branch cs ds) : Replaces rule .choice cs ds
  | branches {cs ds us : List Char} (h : Replaces rule .choice cs ds)
      (hrest : Shape.choice.Spelled us) :
    Replaces rule .choice (cs ++ '|' :: us) (ds ++ '|' :: us)
  | altRest {cs ds us : List Char} (hfirst : Shape.branch.Spelled us)
      (h : Replaces rule .choice cs ds) : Replaces rule .choice (us ++ '|' :: cs) (us ++ '|' :: ds)

theorem Replaces.alike {rule : Shape → List Char → List Char → Prop}
    (hrule : ∀ shape cs ds, rule shape cs ds → shape.Alike cs ds) {shape : Shape}
    {cs ds : List Char} (h : Replaces rule shape cs ds) : shape.Alike cs ds := by
  induction h with
  | here h => exact hrule _ _ _ h
  | group _ ih => exact ih.group
  | plain _ ih => exact ih.plain
  | quantified q _ ih => exact ih.quantified q
  | last _ ih => exact ih.last
  | terms _ hrest ih => exact ih.terms hrest
  | catRest hfirst _ ih => exact ih.catRest hfirst
  | only _ ih => exact ih.only
  | branches _ hrest ih => exact ih.branches hrest
  | altRest hfirst _ ih => exact ih.altRest hfirst

theorem isMatch_eq_of_alike {options options' : CompileOptions} {source source' : String}
    {p p' : Pattern} (h : compile options source = .ok p)
    (h' : compile options' source' = .ok p')
    (halike : Shape.choice.Alike source.toList source'.toList) (subject : String) :
    p.isMatch subject = p'.isMatch subject := by
  obtain ⟨e, m, f, k, he, hf, hexpr⟩ := halike 0
  have htree : Tree.Of source m (some e) := he
  have htree' : Tree.Of source' k (some f) := hf
  rw [isMatch_eq h htree, isMatch_eq h' htree']
  simp only [Tree.eval, hexpr.eval]

end PatternEngine

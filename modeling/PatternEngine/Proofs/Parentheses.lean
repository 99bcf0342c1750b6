import PatternEngine.Proofs.Grammar

/-!
# Parentheses of a pattern

A parenthesis inside of a class is a character like any other. All other opening
parentheses open a group each, and the groups of a spelled expression have their
numbers from their own parentheses. A plus copies the groups of its body, so read
in the order of the code the numbers count up with repetitions. Main statements:
each group stands where the parenthesis of its number is, and no number is left
out or comes too early.
-/

namespace PatternEngine

/-- The characters outside of classes. Whether the first character stands inside
of one is `inside`. -/
def outsideClasses : (inside : Bool) → List Char → List Char
  | _, [] => []
  | true, c :: cs => outsideClasses (c != ']') cs
  | false, c :: cs => if c = '[' then outsideClasses true cs else c :: outsideClasses false cs

/-- Text that leaves no class open. With `n` groups opened before it, `m` are
opened after it, one for each opening parenthesis outside of classes. -/
structure Opens (n : Nat) (cs : List Char) (m : Nat) : Prop where
  closed : ∀ ds, outsideClasses false (cs ++ ds) =
    outsideClasses false cs ++ outsideClasses false ds
  groups_eq : m = n + (outsideClasses false cs).count '('

/-- Group number `k` of a text that `n` groups are opened before: its parenthesis
stands behind `k - 1` others, and what the parenthesis encloses spells its body. -/
def OpensGroup (n : Nat) (cs : List Char) (k : Nat) (body : Expr) : Prop :=
  ∃ before inner after j m, cs = before ++ '(' :: (inner ++ ')' :: after) ∧ Opens n before j ∧
    k = j + 1 ∧ Spells .choice k inner body m

/-- The groups of an expression in the order in which their code starts. A plus
copies a body that can fail. -/
def Expr.emitted : Expr → List (Nat × Expr)
  | .any | .byte _ | .oneOf _ => []
  | .group id body => (id, body) :: body.emitted
  | .quantified .oneOrMore body =>
    if body.nullable then body.emitted else body.emitted ++ body.emitted
  | .quantified _ body => body.emitted
  | .cat first rest | .alt first rest => first.emitted ++ rest.emitted

theorem outsideClasses_inside {body : List Char} (h : ']' ∉ body) (ds : List Char) :
    outsideClasses true (body ++ ']' :: ds) = outsideClasses false ds := by
  induction body with
  | nil => rfl
  | cons c body ih =>
    obtain ⟨hc, hbody⟩ := not_or.mp (List.mem_cons.not.mp h)
    have hinside : (c != ']') = true := bne_iff_ne.mpr (Ne.symm hc)
    rw [List.cons_append, outsideClasses, hinside, ih hbody]

namespace Opens
variable {n m k : Nat} {cs ds : List Char}

theorem nil : Opens n [] n := ⟨fun _ => rfl, rfl⟩

theorem append (h : Opens n cs m) (hrest : Opens m ds k) : Opens n (cs ++ ds) k where
  closed es := by rw [List.append_assoc, h.closed, hrest.closed, h.closed, List.append_assoc]
  groups_eq := by
    rw [hrest.groups_eq, h.groups_eq, h.closed, List.count_append, Nat.add_assoc]

theorem parenthesis : Opens n ['('] (n + 1) := ⟨fun _ => rfl, rfl⟩

theorem char {c : Char} (hclass : c ≠ '[') (hopen : c ≠ '(') : Opens n [c] n := by
  have hself : outsideClasses false [c] = [c] := if_neg hclass
  constructor
  · intro ds
    rw [hself]
    exact if_neg hclass
  · rw [hself, List.count_singleton, beq_eq_false_iff_ne.mpr hopen]
    rfl

theorem charClass {body : List Char} (h : ']' ∉ body) : Opens n ('[' :: (body ++ [']'])) n := by
  have hnone : outsideClasses false ('[' :: (body ++ [']'])) = [] := outsideClasses_inside h []
  constructor
  · intro ds
    rw [hnone, List.cons_append, List.append_assoc]
    exact outsideClasses_inside h ds
  · rw [hnone]
    rfl

end Opens

/-- A spelled expression opens as many groups as it has opening parentheses
outside of classes. -/
theorem Spells.opens {shape : Shape} {n m : Nat} {cs : List Char} {e : Expr}
    (h : Spells shape n cs e m) : Opens n cs m := by
  have hsymbol : ∀ q : Quantifier, q.symbol ≠ '[' ∧ q.symbol ≠ '(' := by
    intro q
    cases q <;> decide
  induction h with
  | @byte n c hc => exact .char (by rintro rfl; cases hc) (by rintro rfl; cases hc)
  | any => exact .char (by decide) (by decide)
  | oneOf hbody => exact .charClass hbody
  | group _ ih => exact Opens.parenthesis.append (ih.append (.char (by decide) (by decide)))
  | plain _ ih | last _ ih | only _ ih => exact ih
  | quantified q _ ih => exact ih.append (.char (hsymbol q).1 (hsymbol q).2)
  | cat _ _ ih₁ ih₂ => exact ih₁.append ih₂
  | alt _ _ ih₁ ih₂ => exact ih₁.append (Opens.append (.char (by decide) (by decide)) ih₂)

namespace OpensGroup
variable {n m k : Nat} {cs ds : List Char} {body : Expr}

theorem append_right (h : OpensGroup n cs k body) (ds : List Char) :
    OpensGroup n (cs ++ ds) k body := by
  obtain ⟨before, inner, after, j, m, rfl, hbefore⟩ := h
  exact ⟨before, inner, after ++ ds, j, m, by simp, hbefore⟩

theorem append_left (h : OpensGroup m ds k body) (hcs : Opens n cs m) :
    OpensGroup n (cs ++ ds) k body := by
  obtain ⟨before, inner, after, j, m, rfl, hbefore, hinner⟩ := h
  exact ⟨cs ++ before, inner, after, j, m, by simp, hcs.append hbefore, hinner⟩

end OpensGroup

/-- Every group has its number from its own parenthesis. -/
theorem Spells.opensGroup {shape : Shape} {n m : Nat} {cs : List Char} {e : Expr}
    (h : Spells shape n cs e m) : ∀ g ∈ e.emitted, OpensGroup n cs g.1 g.2 := by
  induction h with
  | byte | any | oneOf => exact nofun
  | @group n m cs e h ih =>
    refine List.forall_mem_cons.mpr ⟨⟨[], cs, [], n, m, rfl, .nil, rfl, h⟩, ?_⟩
    exact fun g hg => ((ih g hg).append_right [')']).append_left .parenthesis
  | plain _ ih | last _ ih | only _ ih => exact ih
  | @quantified n m cs e q _ ih =>
    have hbody : ∀ g ∈ (Expr.quantified q e).emitted, g ∈ e.emitted := by
      intro g hg
      cases q with
      | oneOrMore =>
        simp only [Expr.emitted] at hg
        split at hg
        · exact hg
        · exact (List.mem_append.mp hg).elim id id
      | zeroOrMore | zeroOrOne => exact hg
    exact fun g hg => (ih g (hbody g hg)).append_right _
  | cat he _ ih₁ ih₂ =>
    exact List.forall_mem_append.mpr ⟨fun g hg => (ih₁ g hg).append_right _,
      fun g hg => (ih₂ g hg).append_left he.opens⟩
  | alt he _ ih₁ ih₂ =>
    refine List.forall_mem_append.mpr ⟨fun g hg => (ih₁ g hg).append_right _, fun g hg => ?_⟩
    exact ((ih₂ g hg).append_left (.char (by decide) (by decide))).append_left he.opens

/-! ### Numbers -/

/-- Numbers that count on from `n` to `m`: each is the next one or has been
counted before. -/
inductive CountsUp : Nat → List Nat → Nat → Prop where
  | nil {n : Nat} : CountsUp n [] n
  | again {n m id : Nat} {ids : List Nat} (hid : 1 ≤ id ∧ id ≤ n) (h : CountsUp n ids m) :
    CountsUp n (id :: ids) m
  | next {n m : Nat} {ids : List Nat} (h : CountsUp (n + 1) ids m) : CountsUp n ((n + 1) :: ids) m

namespace CountsUp
variable {n m k : Nat} {ids more : List Nat}

theorem le (h : CountsUp n ids m) : n ≤ m := by
  induction h with
  | nil => exact Nat.le_refl _
  | again _ _ ih => exact ih
  | next _ ih => exact Nat.le_of_succ_le ih

theorem bounds (h : CountsUp n ids m) : ∀ id ∈ ids, 1 ≤ id ∧ id ≤ m := by
  induction h with
  | nil => exact nofun
  | again hid hrest ih => exact List.forall_mem_cons.mpr ⟨⟨hid.1, hid.2.trans hrest.le⟩, ih⟩
  | next hrest ih => exact List.forall_mem_cons.mpr ⟨⟨Nat.le_add_left .., hrest.le⟩, ih⟩

theorem of_bounds (h : ∀ id ∈ ids, 1 ≤ id ∧ id ≤ n) : CountsUp n ids n := by
  induction ids with
  | nil => exact .nil
  | cons id ids ih =>
    obtain ⟨hid, hids⟩ := List.forall_mem_cons.mp h
    exact .again hid (ih hids)

theorem append_iff : CountsUp n (ids ++ more) m ↔ ∃ k, CountsUp n ids k ∧ CountsUp k more m := by
  constructor
  · intro h
    induction ids generalizing n with
    | nil => exact ⟨n, .nil, h⟩
    | cons id ids ih =>
      cases h with
      | again hid h =>
        obtain ⟨k, hids, hmore⟩ := ih h
        exact ⟨k, .again hid hids, hmore⟩
      | next h =>
        obtain ⟨k, hids, hmore⟩ := ih h
        exact ⟨k, .next hids, hmore⟩
  · rintro ⟨k, hids, hmore⟩
    induction hids with
    | nil => exact hmore
    | again hid _ ih => exact .again hid (ih hmore)
    | next _ ih => exact .next (ih hmore)

theorem eraseDups_append (h : CountsUp n ids m) :
    (List.range' 1 n ++ ids).eraseDups = List.range' 1 m := by
  induction h with
  | @nil n =>
    rw [List.append_nil]
    induction n with
    | zero => rfl
    | succ n ih =>
      have hnew : [1 + n].removeAll (List.range' 1 n) = [1 + n] := by
        simp [List.removeAll, List.mem_range'_1]
      rw [List.range'_1_concat, List.eraseDups_append, ih, hnew]
      rfl
  | @again n m id ids hid _ ih =>
    have hold : (id :: ids).removeAll (List.range' 1 n) = ids.removeAll (List.range' 1 n) := by
      have hmem : (List.range' 1 n).elem id = true :=
        List.elem_eq_true_of_mem (List.mem_range'_1.mpr (by omega))
      exact List.filter_cons_of_neg (by rw [hmem]; exact nofun)
    rwa [List.eraseDups_append, hold, ← List.eraseDups_append]
  | @next n m ids _ ih =>
    rwa [List.range'_1_concat, Nat.add_comm 1, List.append_assoc, List.singleton_append] at ih

end CountsUp

/-- The groups of a spelled expression are numbered from `n + 1` up to `m`, and a
copy brings no number that is new. -/
theorem Spells.countsUp {shape : Shape} {n m : Nat} {cs : List Char} {e : Expr}
    (h : Spells shape n cs e m) : CountsUp n (e.emitted.map Prod.fst) m := by
  induction h with
  | byte | any | oneOf => exact .nil
  | group _ ih => exact .next ih
  | plain _ ih | last _ ih | only _ ih => exact ih
  | @quantified n m cs e q _ ih =>
    cases q with
    | oneOrMore =>
      simp only [Expr.emitted]
      split
      · exact ih
      · rw [List.map_append]
        exact CountsUp.append_iff.mpr ⟨m, ih, .of_bounds ih.bounds⟩
    | zeroOrMore | zeroOrOne => exact ih
  | cat _ _ ih₁ ih₂ | alt _ _ ih₁ ih₂ =>
    rw [Expr.emitted, List.map_append]
    exact CountsUp.append_iff.mpr ⟨_, ih₁, ih₂⟩

end PatternEngine

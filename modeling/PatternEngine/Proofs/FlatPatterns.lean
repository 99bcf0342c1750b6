import PatternEngine.Proofs.Completeness
import PatternEngine.Proofs.Repetition

/-!
# Deterministic rows of items

An item is a character, a dot or a class with at most one quantifier, and a row
is a concatenation of items. A quantified item takes as many bytes as it can
and gives none back. In a deterministic row it cannot take too many: a byte
that it would take belongs to no later item up to the first one that must take
a byte, and after it the row has to go on with a byte of one of these. So the
row takes the bytes of a word item by item just as the word has them, and where
no later item must take a byte nothing can go wrong any more.
-/

open Computability
namespace PatternEngine

inductive Leaf where
  | any
  | byte (b : UInt8)
  | oneOf (c : CharClass)
  deriving DecidableEq, Repr

namespace Leaf

def expr : Leaf → Expr
  | .any => .any
  | .byte b => .byte b
  | .oneOf c => .oneOf c

def holds : Leaf → UInt8 → Bool
  | .any => fun _ => true
  | .byte b => (· == b)
  | .oneOf c => c.contains

theorem eval_expr (leaf : Leaf) (subject : Array UInt8) :
    leaf.expr.eval subject = .oneByte subject leaf.holds := by
  cases leaf <;> rfl

theorem language_expr (leaf : Leaf) : leaf.expr.language = byteWords leaf.holds := by
  cases leaf <;> rfl

theorem nullable_expr (leaf : Leaf) : leaf.expr.nullable = false := by
  cases leaf <;> rfl

theorem terms_expr (leaf : Leaf) : leaf.expr.terms = [leaf.expr] := by
  cases leaf <;> rfl

end Leaf

structure Item where
  leaf : Leaf
  quantifier : Option Quantifier := none
  deriving DecidableEq, Repr

namespace Item

def expr (t : Item) : Expr :=
  match t.quantifier with
  | none => t.leaf.expr
  | some q => .quantified q t.leaf.expr

def holds (t : Item) : UInt8 → Bool := t.leaf.holds

/-- Whether an item must take a byte. -/
def mandatory (t : Item) : Bool :=
  match t.quantifier with
  | none | some .oneOrMore => true
  | some .zeroOrMore | some .zeroOrOne => false

/-- The numbers of bytes that an item may take. -/
def Takes (t : Item) (n : Nat) : Prop :=
  match t.quantifier with
  | none => n = 1
  | some .zeroOrMore => True
  | some .oneOrMore => 1 ≤ n
  | some .zeroOrOne => n ≤ 1

def DisjointFrom (t u : Item) : Prop := ∀ b, t.holds b = true → u.holds b = false

end Item

/-! ### Rows -/

/-- The items up to the first one that must take a byte, if there is one. -/
def toMandatory? : List Item → Option (List Item)
  | [] => none
  | t :: ts => if t.mandatory then some [t] else (toMandatory? ts).map (t :: ·)

/-- No byte of a quantified item belongs to a later item up to the first one
that must take a byte. -/
def Deterministic : List Item → Prop
  | [] => True
  | t :: ts =>
    (t.quantifier.isSome = true →
      ∀ others ∈ toMandatory? ts, ∀ u ∈ others, t.DisjointFrom u) ∧ Deterministic ts

def rowExpr : Item → List Item → Expr
  | t, [] => t.expr
  | t, u :: us => .cat t.expr (rowExpr u us)

def Tree.ofItems : List Item → Tree
  | [] => none
  | t :: ts => some (rowExpr t ts)

def rowLanguage (items : List Item) : Language UInt8 := (items.map fun t => t.expr.language).prod

theorem rowLanguage_cons (t : Item) (ts : List Item) :
    rowLanguage (t :: ts) = t.expr.language * rowLanguage ts := List.prod_cons

theorem Item.terms_expr (t : Item) : t.expr.terms = [t.expr] := by
  unfold Item.expr
  split
  · exact t.leaf.terms_expr
  · rfl

theorem terms_rowExpr (t : Item) (ts : List Item) :
    (rowExpr t ts).terms = (t :: ts).map Item.expr := by
  induction ts generalizing t with
  | nil => exact t.terms_expr
  | cons u us ih => simp only [rowExpr, Expr.terms, ih, List.map_cons]

theorem language_rowExpr (t : Item) (ts : List Item) :
    (rowExpr t ts).language = rowLanguage (t :: ts) := by
  induction ts generalizing t with
  | nil => exact (mul_one _).symm
  | cons u us ih => rw [rowExpr, Expr.language, ih, ← rowLanguage_cons]

theorem Tree.eval_ofItems (subject : Array UInt8) (items : List Item) :
    (Tree.ofItems items).eval subject = Expr.evalTerms subject true (items.map Item.expr) 0 := by
  cases items with
  | nil => rfl
  | cons t ts => rw [Tree.ofItems, Tree.eval, Expr.eval_eq_evalTerms, terms_rowExpr]

theorem Tree.language_ofItems (items : List Item) :
    (Tree.ofItems items).language = rowLanguage items := by
  cases items with
  | nil => rfl
  | cons t ts => exact language_rowExpr t ts

/-! ### What one item takes -/

namespace Outcome

variable {subject : Array UInt8} {holds : UInt8 → Bool} {i : Nat} {v : List UInt8}

theorem oneByte_of_not_holds (h : ∀ b, subject[i]? = some b → holds b = false) :
    oneByte subject holds i = .failed := by
  unfold oneByte
  cases hget : subject[i]? with
  | none => rfl
  | some b => simp [h b hget]

theorem exists_greedy {size : Nat} {run : Nat → Outcome} (hrun : ∀ i, run i ≠ .aborted) (i : Nat) :
    ∃ j, greedy size run i = .matched j := by
  induction i using greedy.induct size run with
  | case1 i hr => exact ⟨i, greedy_of_failed hr⟩
  | case2 i hr => exact absurd hr (hrun i)
  | case3 i k hr hik ih => rwa [greedy_of_matched hr hik.1 hik.2]
  | case4 i k hr hik => exact ⟨k, by rw [greedy, hr]; exact if_neg hik⟩

theorem greedy_oneByte (hall : ∀ b ∈ v, holds b = true) (hword : v <+: subject.toList.drop i)
    (hstop : ∀ b, subject[i + v.length]? = some b → holds b = false) :
    greedy subject.size (oneByte subject holds) i = .matched (i + v.length) := by
  induction v generalizing i with
  | nil => exact greedy_of_failed (oneByte_of_not_holds hstop)
  | cons b v ih =>
    obtain ⟨hb, hv⟩ := List.forall_mem_cons.mp hall
    have hrun := oneByte_of_holds hb hword
    have hlength : i + (b :: v).length = i + 1 + v.length := by simp +arith
    rw [greedy_of_matched hrun (Nat.lt_succ_self i) (oneByte_bounds hrun).1, hlength]
    rw [hlength] at hstop
    exact ih hv (drop_add_of_starts (v := [b]) hword) hstop

end Outcome

theorem forall_of_mem_kstar {holds : UInt8 → Bool} {v : List UInt8} (h : v ∈ (byteWords holds)∗) :
    ∀ b ∈ v, holds b = true := by
  obtain ⟨ws, rfl, hws⟩ := Language.mem_kstar.mp h
  intro b hb
  obtain ⟨w, hw, hbw⟩ := List.mem_flatten.mp hb
  obtain ⟨c, hc, rfl⟩ := hws w hw
  rw [List.mem_singleton.mp hbw]
  exact hc

namespace Item

open Outcome

variable {t : Item} {subject : Array UInt8} {i : Nat} {v : List UInt8}

theorem of_mem_language (h : v ∈ t.expr.language) :
    (∀ b ∈ v, t.holds b = true) ∧ t.Takes v.length := by
  obtain ⟨leaf, quantifier⟩ := t
  have hone : ∀ {w}, w ∈ leaf.expr.language → (∀ b ∈ w, leaf.holds b = true) ∧ w.length = 1 := by
    intro w hw
    rw [leaf.language_expr] at hw
    obtain ⟨b, hb, rfl⟩ := hw
    exact ⟨by simpa using hb, rfl⟩
  have hmany : ∀ {w}, w ∈ leaf.expr.language∗ → ∀ b ∈ w, leaf.holds b = true := by
    intro w hw
    rw [leaf.language_expr] at hw
    exact forall_of_mem_kstar hw
  cases quantifier with
  | none => exact hone h
  | some q =>
    cases q with
    | zeroOrMore => exact ⟨hmany h, trivial⟩
    | oneOrMore =>
      obtain ⟨u, hu, w, hw, rfl⟩ := Language.mem_mul.mp h
      obtain ⟨hall, hlength⟩ := hone hu
      refine ⟨fun b hb => (List.mem_append.mp hb).elim (hall b) (hmany hw b), ?_⟩
      simp only [Takes, List.length_append, hlength]
      omega
    | zeroOrOne =>
      rcases (Language.mem_add _ _ v).mp h with hnil | hv
      · rw [(Language.mem_one v).mp hnil]
        exact ⟨by simp, Nat.zero_le 1⟩
      · exact ⟨(hone hv).1, (hone hv).2.le⟩

theorem Takes.pos {n : Nat} (h : t.Takes n) (ht : t.mandatory = true) : 0 < n := by
  obtain ⟨leaf, quantifier⟩ := t
  match quantifier with
  | none => exact h ▸ Nat.one_pos
  | some .oneOrMore => exact h

theorem eval_of_word (hv : v ∈ t.expr.language) (hword : v <+: subject.toList.drop i)
    (hstop : t.quantifier.isSome = true → ∀ b, subject[i + v.length]? = some b →
      t.holds b = false) : t.expr.eval subject i = .matched (i + v.length) := by
  obtain ⟨hall, htakes⟩ := of_mem_language hv
  obtain ⟨leaf, quantifier⟩ := t
  simp only [expr, holds] at hall hstop ⊢
  match quantifier, v with
  | none, [b] =>
    rw [leaf.eval_expr]
    exact oneByte_of_holds (hall b (by simp)) hword
  | some .zeroOrMore, v =>
    rw [Expr.eval_zeroOrMore_eq_greedy leaf.nullable_expr, leaf.eval_expr]
    exact greedy_oneByte hall hword (hstop rfl)
  | some .oneOrMore, b :: v =>
    have hrun := oneByte_of_holds (hall b (by simp)) hword
    have hmore := greedy_oneByte hall hword (hstop rfl)
    rw [greedy_of_matched hrun (Nat.lt_succ_self i) (oneByte_bounds hrun).1] at hmore
    rw [Expr.eval_oneOrMore leaf.nullable_expr, leaf.eval_expr, repeated, hrun]
    exact hmore
  | some .zeroOrOne, [] =>
    have hrun : oneByte subject leaf.holds i = .failed := oneByte_of_not_holds (hstop rfl)
    rw [Expr.eval, leaf.eval_expr, hrun]
    rfl
  | some .zeroOrOne, [b] =>
    rw [Expr.eval, leaf.eval_expr, oneByte_of_holds (hall b (by simp)) hword]
    rfl

theorem exists_match_of_optional (ht : t.mandatory = false) (subject : Array UInt8) (i : Nat) :
    ∃ j, t.expr.eval subject i = .matched j := by
  obtain ⟨leaf, quantifier⟩ := t
  match quantifier with
  | some .zeroOrMore =>
    rw [expr, Expr.eval_zeroOrMore_eq_greedy leaf.nullable_expr, leaf.eval_expr]
    exact exists_greedy (oneByte_ne_aborted subject leaf.holds) i
  | some .zeroOrOne =>
    rw [expr, Expr.eval, leaf.eval_expr]
    cases hrun : oneByte subject leaf.holds i with
    | matched j => exact ⟨j, rfl⟩
    | failed => exact ⟨i, rfl⟩
    | aborted => exact absurd hrun (oneByte_ne_aborted subject leaf.holds i)

/-- Where a word of an item stands the item matches, though maybe more than the
word. -/
theorem exists_match_of_word (hv : v ∈ t.expr.language) (hword : v <+: subject.toList.drop i) :
    ∃ j, t.expr.eval subject i = .matched j := by
  cases ht : t.mandatory with
  | false => exact exists_match_of_optional ht subject i
  | true =>
    obtain ⟨hall, htakes⟩ := of_mem_language hv
    obtain ⟨b, w, rfl⟩ := List.exists_cons_of_length_pos (htakes.pos ht)
    have hrun := oneByte_of_holds (hall b (by simp)) hword
    obtain ⟨leaf, quantifier⟩ := t
    simp only [expr, holds] at hrun ⊢
    match quantifier with
    | none => exact ⟨i + 1, by rw [leaf.eval_expr, hrun]⟩
    | some .oneOrMore =>
      rw [Expr.eval_oneOrMore leaf.nullable_expr, leaf.eval_expr, repeated, hrun]
      exact exists_greedy (oneByte_ne_aborted subject leaf.holds) (i + 1)

end Item

/-! ### What a row takes -/

section
variable {subject : Array UInt8} {items : List Item} {i : Nat}

theorem evalTerms_cons_of_matched {t : Expr} {ts : List Expr} {fixed : Bool} {j : Nat}
    (h : t.eval subject i = .matched j) : Expr.evalTerms subject fixed (t :: ts) i =
      Expr.evalTerms subject (fixed && t.width.isSome) ts j := by
  rw [Expr.evalTerms, Outcome.undoneIf_eq_matched.mpr h]
  rfl

theorem exists_match_of_optional_row (h : toMandatory? items = none) (fixed : Bool) (i : Nat) :
    ∃ j, Expr.evalTerms subject fixed (items.map Item.expr) i = .matched j := by
  induction items generalizing fixed i with
  | nil => exact ⟨i, rfl⟩
  | cons t ts ih =>
    simp only [toMandatory?] at h
    split at h
    · cases h
    · rename_i ht
      obtain ⟨j, hj⟩ := Item.exists_match_of_optional (Bool.eq_false_iff.mpr ht) subject i
      rw [List.map_cons, evalTerms_cons_of_matched hj]
      exact ih (Option.map_eq_none_iff.mp h) _ j

/-- A word of a row that must take a byte starts with a byte of one of the items
up to the first that must take one. -/
theorem exists_byte_of_mandatory {others : List Item} (h : toMandatory? items = some others)
    (hbegins : Begins (rowLanguage items) subject i) :
    ∃ b, subject[i]? = some b ∧ ∃ u ∈ others, u.holds b = true := by
  induction items generalizing others i with
  | nil => cases h
  | cons t ts ih =>
    rw [rowLanguage_cons] at hbegins
    obtain ⟨v, hv, hword, hrest⟩ := hbegins.of_mul
    obtain ⟨hall, htakes⟩ := Item.of_mem_language hv
    simp only [toMandatory?] at h
    cases v with
    | cons b w =>
      have ht : t ∈ others := by
        split at h
        · cases h
          exact List.mem_singleton.mpr rfl
        · obtain ⟨us, -, rfl⟩ := Option.map_eq_some_iff.mp h
          exact List.mem_cons_self
      exact ⟨b, getElem?_of_starts hword, t, ht, hall b (by simp)⟩
    | nil =>
      split at h
      · rename_i ht
        exact absurd (htakes.pos ht) (Nat.lt_irrefl 0)
      · obtain ⟨us, hus, rfl⟩ := Option.map_eq_some_iff.mp h
        obtain ⟨b, hb, u, hu, hholds⟩ := ih hus hrest
        exact ⟨b, hb, u, List.mem_cons_of_mem t hu, hholds⟩

theorem exists_match_of_begins (hdet : Deterministic items)
    (hbegins : Begins (rowLanguage items) subject i) (fixed : Bool) :
    ∃ j, Expr.evalTerms subject fixed (items.map Item.expr) i = .matched j := by
  induction items generalizing i fixed with
  | nil => exact ⟨i, rfl⟩
  | cons t ts ih =>
    rw [rowLanguage_cons] at hbegins
    obtain ⟨v, hv, hword, hrest⟩ := hbegins.of_mul
    rw [List.map_cons]
    cases hts : toMandatory? ts with
    | none =>
      -- whatever this item takes, the rest of the row may take nothing
      obtain ⟨j, hj⟩ := Item.exists_match_of_word hv hword
      rw [evalTerms_cons_of_matched hj]
      exact exists_match_of_optional_row hts _ j
    | some others =>
      -- the next byte is one of `others`, so this item stops where its word does
      have hstop : t.quantifier.isSome = true → ∀ b, subject[i + v.length]? = some b →
          t.holds b = false := by
        intro hquantified b hb
        obtain ⟨c, hc, u, hu, hholds⟩ := exists_byte_of_mandatory hts hrest
        obtain rfl : b = c := Option.some.inj (hb.symm.trans hc)
        have hdisjoint := hdet.1 hquantified others hts u hu b
        exact Bool.eq_false_iff.mpr fun ht => by simp [hdisjoint ht] at hholds
      rw [evalTerms_cons_of_matched (Item.eval_of_word hv hword hstop)]
      exact ih hdet.2 hrest _

end

/-- A deterministic row matches a subject exactly when the subject starts with a
word of its language. -/
theorem isMatch_iff_of_deterministic {options : CompileOptions} {source : String} {p : Pattern}
    (h : compile options source = .ok p) {items : List Item} {groups : Nat}
    (hrow : (Tree.ofItems items).Of source groups) (hdet : Deterministic items)
    (subject : String) : p.isMatch subject = true ↔
      ∃ w ∈ (Tree.ofItems items).language, w <+: subject.toUTF8.data.toList := by
  refine isMatch_iff_of_exists_match h hrow subject fun hbegins => ?_
  rw [Tree.language_ofItems] at hbegins
  rw [Tree.eval_ofItems]
  exact exists_match_of_begins hdet hbegins true

def optionalRow : Pattern where
  source := "a*b?c"
  bytecode := #[1, 97, 8, 11, 255, 255, 255, 248, 14, 1, 12, 0, 0, 0, 19, 1, 98, 8, 14, 1, 12, 0, 0,
    0, 9, 1, 99, 8, 12, 0, 0, 0, 1, 17, 18]
  groups := 0

def optionalRowItems : List Item :=
  [⟨.byte 97, some .zeroOrMore⟩, ⟨.byte 98, some .zeroOrOne⟩, ⟨.byte 99, none⟩]

theorem compile_optionalRow : compile {} "a*b?c" = .ok optionalRow := by cbv

theorem optionalRowItems_of : (Tree.ofItems optionalRowItems).Of "a*b?c" 0 := by
  have ha : Spells .primary 0 ['a'] (.byte 97) 0 := .byte rfl
  have hb : Spells .primary 0 ['b'] (.byte 98) 0 := .byte rfl
  have hc : Spells .primary 0 ['c'] (.byte 99) 0 := .byte rfl
  exact Spells.only (.cat (.quantified .zeroOrMore ha)
    (.cat (.quantified .zeroOrOne hb) (.last (.plain hc))))

theorem optionalRowItems_deterministic : Deterministic optionalRowItems := by
  simp [Deterministic, optionalRowItems, toMandatory?, Item.mandatory, Item.DisjointFrom,
    Item.holds, Leaf.holds]

theorem isMatch_iff_of_deterministic_optionalRow : optionalRow.isMatch "aac" = true ↔
    ∃ w ∈ (Tree.ofItems optionalRowItems).language, w <+: "aac".toUTF8.data.toList :=
  isMatch_iff_of_deterministic compile_optionalRow optionalRowItems_of
    optionalRowItems_deterministic "aac"

end PatternEngine

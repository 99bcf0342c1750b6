import PatternEngine.Proofs.Parentheses
import PatternEngine.Proofs.ProgramForm

/-!
# Groups in emitted code

A group is numbered by its opening parenthesis, and its code stands between a
start and an end that carry the number. A plus copies the code of its body, and
a body of its body is copied once more by each plus around it, so a number may
start and end many times. Main statement: the starts and ends of a program nest,
and what stands between any two that belong together is the code of the group
whose parenthesis has their number.
-/

namespace PatternEngine

/-! ### Code -/

def Instruction.groupId? : Instruction → Option Nat
  | .groupStart id | .groupEnd id => some id.toNat
  | _ => none

def Piece.groupId? : Piece → Option Nat
  | .plain i => i.groupId?
  | .jumpIf _ _ | .rejectUnlessFlag | .rewind _ => none

def Code.Ungrouped (c : Code) : Prop := ∀ p ∈ c.pieces, p.groupId? = none

/-- Pieces with the groups that start among them, in this order. A group has all
of its body between its start and its end. -/
inductive Carries : List Piece → List (Nat × Expr) → Prop where
  | plain {ps : List Piece} (h : ∀ p ∈ ps, p.groupId? = none) : Carries ps []
  | group {id : Nat} {body : Expr} {gs : List (Nat × Expr)}
      (h : Carries body.fragment.code.pieces gs) :
    Carries (.plain (.groupStart (.ofNat id)) ::
      (body.fragment.code.pieces ++ [.plain (.groupEnd (.ofNat id))])) ((id, body) :: gs)
  | append {ps qs : List Piece} {gs hs : List (Nat × Expr)} (h : Carries ps gs)
      (hrest : Carries qs hs) : Carries (ps ++ qs) (gs ++ hs)

namespace Carries
variable {p : Piece} {ps qs : List Piece} {gs : List (Nat × Expr)}

theorem behind (hp : p.groupId? = none) (h : Carries ps gs) : Carries (p :: ps) gs :=
  (plain (List.forall_mem_singleton.mpr hp)).append h

theorem before (h : Carries ps gs) (hqs : ∀ q ∈ qs, q.groupId? = none) : Carries (ps ++ qs) gs := by
  simpa using h.append (plain hqs)

end Carries

namespace Code.Ungrouped
variable {a b : Code}

theorem append (ha : a.Ungrouped) (hb : b.Ungrouped) : (a ++ b).Ungrouped :=
  List.forall_mem_append.mpr ⟨ha, hb⟩

theorem piece {p : Piece} (h : p.groupId? = none) : (Code.piece p).Ungrouped :=
  List.forall_mem_singleton.mpr h

theorem chain {settled : Bool} {tests : List Instruction} (h : ∀ t ∈ tests, t.groupId? = none) :
    (Code.chain settled tests).Ungrouped := by
  induction tests with
  | nil => exact nofun
  | cons t ts ih =>
    obtain ⟨ht, hts⟩ := List.forall_mem_cons.mp h
    rw [chain_cons]
    split
    · exact piece (p := .plain t) ht
    · exact (piece (p := .plain t) ht).append ((piece rfl).append (ih hts))

theorem tests (cls : CharClass) : cls.tests.Ungrouped := by
  unfold CharClass.tests
  split
  · exact chain fun t ht => by obtain ⟨r, -, rfl⟩ := List.mem_map.mp ht; rfl
  · refine chain fun t ht => ?_
    obtain ⟨r, -, rfl⟩ := List.mem_map.mp ht
    unfold ByteRange.test
    split_ifs <;> rfl

theorem handlers (counts : List Nat) : (Branch.handlers counts.reverse).Ungrouped := by
  induction counts with
  | nil => exact nofun
  | cons count rest ih =>
    rw [Branch.handlers_cons]
    split
    · exact piece rfl
    · exact (piece rfl).append ((piece rfl).append ih)

theorem undo (b : Branch) : b.undo.Ungrouped := by
  unfold Branch.undo
  split
  · exact nofun
  · rw [← List.reverse_reverse b.rewinds]
    exact (piece rfl).append (handlers _)

end Code.Ungrouped

namespace Expr

theorem emitted_terms (e : Expr) : e.terms.flatMap emitted = e.emitted := by
  induction e with
  | cat first rest _ ih =>
    rw [terms, List.flatMap_cons, ih]
    rfl
  | _ => exact List.flatMap_singleton ..

theorem quantify_carries {e : Expr} (q : Quantifier)
    (h : Carries e.fragment.code.pieces e.emitted) :
    Carries (e.fragment.quantify q).code.pieces (Expr.quantified q e).emitted := by
  have hloop : Carries (Fragment.loop e.fragment.code).pieces e.emitted :=
    h.before (Code.Ungrouped.append (.piece rfl) (.piece rfl))
  cases q with
  | zeroOrOne => exact h.before (Code.Ungrouped.piece rfl)
  | zeroOrMore =>
    simp only [Fragment.quantify, Fragment.zeroOrMore]
    split
    · exact h.before (Code.Ungrouped.piece rfl)
    · exact hloop
  | oneOrMore =>
    simp only [Fragment.quantify, Fragment.oneOrMore, emitted, nullable_fragment]
    split
    · exact h
    · exact h.append (.behind rfl hloop)

theorem guarded_carries {ts : List Expr} (h : ∀ t ∈ ts, Carries t.fragment.code.pieces t.emitted)
    (undoSize position : Nat) (before : Option Nat) :
    Carries (Branch.guarded undoSize
      (Branch.place position before (ts.map fragment)).reverse).pieces (ts.flatMap emitted) := by
  have hexit : ∀ ahead t, (Branch.exit undoSize ahead t).groupId? = none := by
    intro ahead t
    unfold Branch.exit
    split <;> rfl
  induction ts generalizing position before with
  | nil => exact .plain nofun
  | cons t ts ih =>
    obtain ⟨ht, hts⟩ := List.forall_mem_cons.mp h
    rw [List.map_cons, Branch.place, Branch.guarded_cons, List.flatMap_cons]
    exact ht.append (.behind (hexit _ _) (ih hts _ _))

theorem fragment_carries (e : Expr) : Carries e.fragment.code.pieces e.emitted := by
  induction e using induction_on_terms with
  | any | byte b => exact .plain (Code.Ungrouped.append (.piece rfl) (.piece rfl))
  | oneOf c => exact .plain (Code.Ungrouped.append (.tests c) (.piece rfl))
  | group id body ih => exact .group ih
  | quantified q body ih => exact quantify_carries q ih
  | cat first rest ih =>
    have htwo : 2 ≤ (branchOf (cat first rest).terms).terms.length :=
      two_le_terms_branchOf (terms_ne_nil rest)
    rw [fragment_eq_close, ← emitted_terms, Branch.close_of_two_le htwo, terms_branchOf]
    exact (guarded_carries ih _ _ _).before (Code.Ungrouped.undo _)
  | alt first rest ih₁ ih₂ =>
    rw [fragment_alt]
    exact ih₁.append (.behind rfl ih₂)

theorem openTerms_carries {ts : List Expr} (hts : ts ≠ []) {b : Branch} {position : Nat}
    {before : Option Nat}
    (hb : b.terms = (Branch.place position before (ts.map fragment)).reverse) :
    Carries b.openCode.pieces (ts.flatMap emitted) := by
  induction ts generalizing b position before with
  | nil => exact absurd rfl hts
  | cons t ts ih =>
    rw [List.flatMap_cons]
    by_cases hlast : ts = []
    · subst hlast
      rw [Branch.openCode_single hb, List.flatMap_nil, List.append_nil]
      exact t.fragment_carries
    · obtain ⟨rest, hrest, hcode⟩ :=
        Branch.exists_openCode_cons hb (List.map_eq_nil_iff.not.mpr hlast)
      rw [hcode]
      exact t.fragment_carries.append (.behind rfl (ih hlast hrest))

theorem openCode_carries (e : Expr) : Carries e.openCode.pieces e.emitted := by
  have whole : ∀ u : Expr, u.openCode = u.fragment.code → Carries u.openCode.pieces u.emitted := by
    intro u hcode
    rw [hcode]
    exact u.fragment_carries
  induction e with
  | any | byte b | oneOf c | group id body | quantified q body => exact whole _ rfl
  | cat first rest =>
    rw [openCode, addTo_cat, ← emitted_terms]
    exact openTerms_carries (List.cons_ne_nil _ _) (terms_branchOf _)
  | alt first rest ih₁ ih₂ =>
    rw [openCode_alt]
    exact first.fragment_carries.append (.behind rfl ih₂)

end Expr

/-! ### Listings -/

/-- The lines of pieces in a program that fails at `failAt`, one for each. -/
def LinesOf (failAt : Nat) : List Piece → List Line → Prop :=
  List.Forall₂ fun p line => p.resolve failAt line.offset = .ok line.instruction

def Line.groupId? (line : Line) : Option Nat := line.instruction.groupId?

/-- Lines whose starts and ends of groups nest. A start and the end that belongs
to it have the same number, and the number owns the lines between them. -/
inductive Grouped (owns : Nat → List Line → Prop) : List Line → Prop where
  | plain {lines : List Line} (h : ∀ line ∈ lines, line.groupId? = none) : Grouped owns lines
  | group {id : UInt8} {start stop : Line} {inner : List Line}
      (hstart : start.instruction = .groupStart id) (hstop : stop.instruction = .groupEnd id)
      (howns : owns id.toNat inner) (hinner : Grouped owns inner) :
    Grouped owns (start :: (inner ++ [stop]))
  | append {lines more : List Line} (h : Grouped owns lines) (hmore : Grouped owns more) :
    Grouped owns (lines ++ more)

theorem Piece.groupId?_of_resolve {p : Piece} {failAt pc : Nat} {i : Instruction}
    (h : p.resolve failAt pc = .ok i) : i.groupId? = p.groupId? := by
  cases p with
  | plain j =>
    cases h
    rfl
  | jumpIf flag distance =>
    obtain ⟨w, -, rfl⟩ := resolve_jumpIf h
    cases flag <;> rfl
  | rejectUnlessFlag =>
    obtain ⟨w, -, rfl⟩ := resolve_rejectUnlessFlag h
    rfl
  | rewind count =>
    obtain ⟨w, -, rfl⟩ := resolve_rewind h
    rfl

namespace LinesOf
variable {failAt : Nat} {ps qs : List Piece} {lines : List Line}

theorem filterMap_groupId? (h : LinesOf failAt ps lines) :
    lines.filterMap Line.groupId? = ps.filterMap Piece.groupId? := by
  induction h with
  | nil => rfl
  | cons hi _ ih =>
    rw [List.filterMap_cons, List.filterMap_cons, ih, Line.groupId?, Piece.groupId?_of_resolve hi]

theorem exists_append (h : LinesOf failAt (ps ++ qs) lines) :
    ∃ first rest, lines = first ++ rest ∧ LinesOf failAt ps first ∧ LinesOf failAt qs rest := by
  induction ps generalizing lines with
  | nil => exact ⟨[], lines, rfl, .nil, h⟩
  | cons p ps ih =>
    cases h with
    | cons hp hrest =>
      obtain ⟨first, rest, rfl, hfirst, hrest⟩ := ih hrest
      exact ⟨_ :: first, rest, rfl, .cons hp hfirst, hrest⟩

end LinesOf

namespace Carries
variable {ps : List Piece} {gs : List (Nat × Expr)}

/-- Starts and ends count up as the groups do. -/
theorem countsUp (h : Carries ps gs) (hfit : ∀ g ∈ gs, (UInt8.ofNat g.1).toNat = g.1) {n m : Nat}
    (hcount : CountsUp n (gs.map Prod.fst) m) : CountsUp n (ps.filterMap Piece.groupId?) m := by
  induction h generalizing n m with
  | plain hps =>
    rw [List.filterMap_eq_nil_iff.mpr hps]
    exact hcount
  | @group id body gs _ ih =>
    obtain ⟨hid, hgs⟩ := List.forall_mem_cons.mp hfit
    have hpieces : (Piece.plain (.groupStart (.ofNat id)) ::
        (body.fragment.code.pieces ++ [.plain (.groupEnd (.ofNat id))])).filterMap
          Piece.groupId? = id :: (body.fragment.code.pieces.filterMap Piece.groupId? ++ [id]) := by
      simp [Piece.groupId?, Instruction.groupId?, hid]
    -- the end repeats the number that its start has counted
    have hlast : CountsUp m [id] m :=
      .of_bounds (List.forall_mem_singleton.mpr (hcount.bounds id (List.mem_cons_self ..)))
    rw [hpieces]
    cases hcount with
    | again hold h => exact .again hold (CountsUp.append_iff.mpr ⟨m, ih hgs h, hlast⟩)
    | next h => exact .next (CountsUp.append_iff.mpr ⟨m, ih hgs h, hlast⟩)
  | append _ _ ih₁ ih₂ =>
    obtain ⟨hfirst, hrest⟩ := List.forall_mem_append.mp hfit
    rw [List.map_append] at hcount
    obtain ⟨k, h₁, h₂⟩ := CountsUp.append_iff.mp hcount
    rw [List.filterMap_append]
    exact CountsUp.append_iff.mpr ⟨k, ih₁ hfirst h₁, ih₂ hrest h₂⟩

theorem grouped (h : Carries ps gs) {failAt : Nat} {lines : List Line}
    (hlines : LinesOf failAt ps lines) {opens : Nat → Expr → Prop}
    (hgs : ∀ g ∈ gs, (UInt8.ofNat g.1).toNat = g.1 ∧ opens g.1 g.2) :
    Grouped (fun k inner => ∃ body, opens k body ∧
      LinesOf failAt body.fragment.code.pieces inner) lines := by
  induction h generalizing lines with
  | @plain ps hps =>
    have hnone := hlines.filterMap_groupId?
    rw [List.filterMap_eq_nil_iff.mpr hps] at hnone
    exact .plain (List.filterMap_eq_nil_iff.mp hnone)
  | @group id body gs _ ih =>
    obtain ⟨⟨hid, hopens⟩, hinner⟩ := List.forall_mem_cons.mp hgs
    cases hlines with
    | cons hstart hrest =>
      obtain ⟨inner, last, rfl, hbody, hlast⟩ := LinesOf.exists_append hrest
      cases hlast with
      | cons hstop hnil =>
        cases hnil
        refine .group (Except.ok.inj hstart).symm (Except.ok.inj hstop).symm ?_ (ih hbody hinner)
        exact ⟨body, hid ▸ hopens, hbody⟩
  | append _ _ ih₁ ih₂ =>
    obtain ⟨hfirst, hrest⟩ := List.forall_mem_append.mp hgs
    obtain ⟨first, rest, rfl, h₁, h₂⟩ := hlines.exists_append
    exact .append (ih₁ h₁ hfirst) (ih₂ h₂ hrest)

end Carries

/-- The group of a number has its parenthesis in the pattern, and lines are the
code of what the parenthesis encloses. -/
def OwnedBy (source : String) (failAt : Nat) (k : Nat) (lines : List Line) : Prop :=
  ∃ body, OpensGroup 0 source.toList k body ∧ LinesOf failAt body.fragment.code.pieces lines

theorem Layout.exists_linesOf {layout : Layout} {limit : Nat} {code : Array UInt8}
    (h : layout.assemble limit = .ok code) :
    ∃ lines, disassemble code = ⟨lines.toArray, none⟩ ∧
      LinesOf layout.failAt layout.code.pieces lines := by
  have hstands : Stands code layout.failAt 0 layout.code.pieces := standsAt_of_assemble h
  obtain ⟨lines, hlines, hall⟩ := hstands.exists_lines (hstands.mono fun _ _ _ _ => trivial)
  rw [layout.code.sum_width_pieces] at hlines
  exact ⟨lines, disassemble_of_reads hlines (Rope.size_of_write (write_of_assemble h).1).le,
    hall.imp fun _ _ hi => hi.2⟩

/-- The layout of a pattern carries the groups of its parentheses. -/
theorem Tree.Of.exists_carries {tree : Tree} {source : String} {groups : Nat}
    (h : tree.Of source groups) : ∃ gs, Carries tree.layout.code.pieces gs ∧
      CountsUp 0 (gs.map Prod.fst) groups ∧
      (∀ g ∈ gs, OpensGroup 0 source.toList g.1 g.2) ∧
      groups = (outsideClasses false source.toList).count '(' := by
  cases tree with
  | none =>
    obtain ⟨hsource, rfl⟩ := h
    rw [hsource]
    exact ⟨[], .plain (Code.Ungrouped.piece rfl), .nil, nofun, rfl⟩
  | some e =>
    have hspells : Spells .choice 0 source.toList e groups := h
    have hlayout : Carries (Layout.ofExpr e).code.pieces e.emitted := by
      rw [Layout.pieces_ofExpr]
      exact e.openCode_carries.before (by decide)
    refine ⟨e.emitted, hlayout, hspells.countsUp, hspells.opensGroup, ?_⟩
    rw [hspells.opens.groups_eq, Nat.zero_add]

/-- The groups of a pattern that compiles are those of its opening parentheses
outside of classes, at most as many as one byte can number. The numbers in its
program are these, each found first behind the numbers before it. Starts and ends
nest, and the lines between two that belong together are the code of the group
whose parenthesis has their number, however often a plus has copied it. -/
theorem groups_of_compile {options : CompileOptions} {source : String} {p : Pattern}
    (h : compile options source = .ok p) :
    p.groups = (outsideClasses false source.toList).count '(' ∧ p.groups ≤ maxGroups ∧
      p.listing.isComplete = true ∧
      (p.listing.lines.toList.filterMap Line.groupId?).eraseDups = List.range' 1 p.groups ∧
      ∃ failAt, Grouped (OwnedBy source failAt) p.listing.lines.toList := by
  obtain ⟨tree, ⟨htree, hmax⟩, hcode⟩ := exists_layout_of_compile h
  obtain ⟨lines, hlisting, hlines⟩ := Layout.exists_linesOf hcode
  have hlisting : p.listing = ⟨lines.toArray, none⟩ := hlisting
  rw [hlisting]
  obtain ⟨gs, hcarries, hcount, hopens, hgroups⟩ := htree.exists_carries
  have hfit : ∀ g ∈ gs, (UInt8.ofNat g.1).toNat = g.1 := by
    intro g hg
    have hle := (hcount.bounds g.1 (List.mem_map_of_mem hg)).2
    exact UInt8.toNat_ofNat_of_lt' (Nat.lt_succ_of_le (hle.trans hmax))
  refine ⟨hgroups, hmax, rfl, ?_, tree.layout.failAt, ?_⟩
  · rw [hlines.filterMap_groupId?]
    exact (hcarries.countsUp hfit hcount).eraseDups_append
  · exact hcarries.grouped hlines fun g hg => ⟨hfit g hg, hopens g hg⟩

/-- The class hides a parenthesis, and the inner plus is itself copied. -/
def copiedGroups : Pattern where
  source := "(([(])+)+"
  bytecode := #[15, 1, 15, 2, 1, 40, 8, 16, 2, 12, 0, 0, 0, 14, 15, 2, 1, 40, 8, 16, 2, 11, 255,
    255, 255, 244, 14, 1, 16, 1, 12, 0, 0, 0, 37, 15, 1, 15, 2, 1, 40, 8, 16, 2, 12, 0, 0, 0, 14,
    15, 2, 1, 40, 8, 16, 2, 11, 255, 255, 255, 244, 14, 1, 16, 1, 11, 255, 255, 255, 221, 14, 1, 12,
    0, 0, 0, 1, 17, 18]
  groups := 2

theorem groups_of_compile_copiedGroups :
    copiedGroups.groups = (outsideClasses false "(([(])+)+".toList).count '(' ∧
    (copiedGroups.listing.lines.toList.filterMap Line.groupId?).eraseDups = [1, 2] ∧
    ∃ failAt, Grouped (OwnedBy "(([(])+)+" failAt) copiedGroups.listing.lines.toList := by
  have hcompile : compile {} "(([(])+)+" = .ok copiedGroups := by cbv
  obtain ⟨hgroups, -, -, hids, hgrouped⟩ := groups_of_compile hcompile
  exact ⟨hgroups, hids, hgrouped⟩

end PatternEngine

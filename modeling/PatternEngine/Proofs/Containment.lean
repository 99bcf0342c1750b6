import PatternEngine.Proofs.Programs

/-!
# Code that stays inside itself

A jump of a stretch of code lands on the start of one of its pieces or on its
end, wherever the code stands. Its other pieces are tests, moves over a tested
byte, flags and marks of groups, and it never steps back further than it is
long. Each construction of code keeps this, so it holds of every expression.
-/

namespace PatternEngine

/-- Instructions inside an expression: all but jumps, free moves of the cursor
and the two ends of a run. -/
def Instruction.IsInner : Instruction → Prop
  | .testSingle _ | .testRange _ _ | .testNegatedRange _ _ | .testAny | .testDigit
  | .testLowerCase | .testUpperCase | .incPosEq | .setFlag _ | .groupStart _ | .groupEnd _ => True
  | .incPos | .decPos | .jumpEq _ | .jumpNeq _ | .jumpPos _ | .accept | .fail => False

theorem Instruction.IsInner.bytes_and_target {i : Instruction} (h : i.IsInner) :
    i.bytes?.isSome ∧ i.jumpTarget? = none := by
  cases i <;> first | exact ⟨rfl, rfl⟩ | exact h.elim

namespace Piece

def LandsOn (target : Nat → Prop) (pc : Nat) : Piece → Prop
  | .jumpIf _ distance =>
    ∃ landing : Nat, distance = landing - (pc + jumpWidth : Nat) ∧ target landing
  | .plain _ | .rejectUnlessFlag | .rewind _ => True

/-- A step back goes back at all and by no more than a bound. -/
def Fits (bound : Nat) : Piece → Prop
  | .plain i => i.IsInner
  | .rewind count => 0 < count ∧ count ≤ bound
  | .jumpIf _ _ | .rejectUnlessFlag => True

theorem Fits.mono {p : Piece} {m n : Nat} (h : p.Fits m) (hmn : m ≤ n) : p.Fits n := by
  cases p with
  | rewind count => exact ⟨h.1, h.2.trans hmn⟩
  | plain | jumpIf | rejectUnlessFlag => exact h

end Piece

namespace Code

/-- Every start of a piece of code at a place, and the end of the code, is a
target. -/
def CutsAt (c : Code) (target : Nat → Prop) (pc : Nat) : Prop :=
  Placed (fun pc _ => target pc) pc c.pieces ∧ target (pc + c.size)

def LandsAt (c : Code) (target : Nat → Prop) (pc : Nat) : Prop :=
  Placed (fun pc p => p.LandsOn target pc) pc c.pieces

/-- All jumps stay inside, wherever the code stands. -/
def Closed (c : Code) : Prop := ∀ ⦃target pc⦄, c.CutsAt target pc → c.LandsAt target pc

def FitsIn (c : Code) (bound : Nat) : Prop := ∀ p ∈ c.pieces, p.Fits bound

section
variable {a b c : Code} {target : Nat → Prop} {pc m n : Nat}

theorem CutsAt.start (h : c.CutsAt target pc) : target pc := by
  obtain ⟨hstarts, hend⟩ := h
  rw [← c.sum_width_pieces] at hend
  cases hc : c.pieces with
  | nil =>
    rw [hc] at hend
    exact hend
  | cons p ps =>
    rw [hc] at hstarts
    exact hstarts.1

theorem CutsAt.stop (h : c.CutsAt target pc) : target (pc + c.size) := h.2

theorem cutsAt_append : (a ++ b).CutsAt target pc ↔
    a.CutsAt target pc ∧ b.CutsAt target (pc + a.size) := by
  constructor
  · rintro ⟨hstarts, hend⟩
    rw [pieces_append, placed_append, a.sum_width_pieces] at hstarts
    rw [size_append, ← Nat.add_assoc] at hend
    have hb : b.CutsAt target (pc + a.size) := ⟨hstarts.2, hend⟩
    exact ⟨⟨hstarts.1, hb.start⟩, hb⟩
  · rintro ⟨ha, hb⟩
    refine ⟨?_, ?_⟩
    · rw [pieces_append, placed_append, a.sum_width_pieces]
      exact ⟨ha.1, hb.1⟩
    · rw [size_append, ← Nat.add_assoc]
      exact hb.2

theorem landsAt_append : (a ++ b).LandsAt target pc ↔
    a.LandsAt target pc ∧ b.LandsAt target (pc + a.size) := by
  simp only [LandsAt, pieces_append, placed_append, sum_width_pieces]

theorem landsAt_piece {p : Piece} : (piece p).LandsAt target pc ↔ p.LandsOn target pc := by
  simp only [LandsAt, pieces_piece, Placed, and_true]

theorem fitsIn_append : (a ++ b).FitsIn n ↔ a.FitsIn n ∧ b.FitsIn n := by
  simp only [FitsIn, pieces_append, List.forall_mem_append]

theorem fitsIn_piece {p : Piece} : (piece p).FitsIn n ↔ p.Fits n := by
  simp only [FitsIn, pieces_piece, List.forall_mem_singleton]

theorem FitsIn.mono (h : c.FitsIn m) (hmn : m ≤ n) : c.FitsIn n :=
  fun p hp => (h p hp).mono hmn

theorem closed_nil : nil.Closed := fun _ _ _ => trivial

theorem closed_piece {p : Piece} (h : ∀ target pc, p.LandsOn target pc) : (piece p).Closed :=
  fun target pc _ => landsAt_piece.mpr (h target pc)

theorem closed_plain (i : Instruction) : (plain i).Closed := closed_piece fun _ _ => trivial

theorem Closed.append (ha : a.Closed) (hb : b.Closed) : (a ++ b).Closed := by
  intro target pc h
  obtain ⟨hca, hcb⟩ := cutsAt_append.mp h
  exact landsAt_append.mpr ⟨ha hca, hb hcb⟩

/-- A jump over the code after it. -/
theorem Closed.skip (hb : b.Closed) (flag : Bool) :
    (piece (.jumpIf flag b.size) ++ b).Closed := by
  intro target pc h
  obtain ⟨-, hcb⟩ := cutsAt_append.mp h
  refine landsAt_append.mpr ⟨landsAt_piece.mpr ⟨pc + jumpWidth + b.size, by omega, ?_⟩, hb hcb⟩
  exact hcb.stop

theorem Closed.loop (hb : b.Closed) : (Fragment.loop b).Closed := by
  intro target pc h
  obtain ⟨hcb, hrest⟩ := cutsAt_append.mp h
  refine landsAt_append.mpr ⟨hb hcb, landsAt_append.mpr ⟨landsAt_piece.mpr ?_, ?_⟩⟩
  · exact ⟨pc, by omega, hcb.start⟩
  · exact closed_plain _ (cutsAt_append.mp hrest).2

end

/-- Code of an expression, with nothing around it. -/
structure SelfContained (c : Code) : Prop where
  closed : c.Closed
  fits : c.FitsIn c.size

namespace SelfContained

variable {a b c : Code}

theorem plain {i : Instruction} (h : i.IsInner) : (Code.plain i).SelfContained :=
  ⟨closed_plain i, fitsIn_piece.mpr h⟩

theorem append (ha : a.SelfContained) (hb : b.SelfContained) : (a ++ b).SelfContained :=
  ⟨ha.closed.append hb.closed, fitsIn_append.mpr
    ⟨ha.fits.mono (Nat.le_add_right ..), hb.fits.mono (Nat.le_add_left ..)⟩⟩

theorem block (h : c.SelfContained) : c.block.SelfContained := ⟨h.closed, h.fits⟩

theorem skip (hb : b.SelfContained) (flag : Bool) :
    (piece (.jumpIf flag b.size) ++ b).SelfContained :=
  ⟨hb.closed.skip flag, fitsIn_append.mpr
    ⟨fitsIn_piece.mpr trivial, hb.fits.mono (Nat.le_add_left ..)⟩⟩

theorem loop (hb : b.SelfContained) : (Fragment.loop b).SelfContained :=
  ⟨hb.closed.loop, fitsIn_append.mpr ⟨hb.fits.mono (Nat.le_add_right ..),
    fitsIn_append.mpr ⟨fitsIn_piece.mpr trivial, fitsIn_piece.mpr trivial⟩⟩⟩

theorem chain {settled : Bool} {tests : List Instruction} (h : ∀ t ∈ tests, t.IsInner) :
    (Code.chain settled tests).SelfContained := by
  induction tests with
  | nil => exact ⟨closed_nil, fun p hp => nomatch hp⟩
  | cons t ts ih =>
    have hfirst := plain (h t (List.mem_cons_self ..))
    have hrest := ih fun u hu => h u (List.mem_cons_of_mem t hu)
    rw [chain_cons]
    split
    · exact hfirst
    · exact hfirst.append (hrest.skip settled)

theorem tests (cls : CharClass) : cls.tests.SelfContained := by
  unfold CharClass.tests
  split
  · refine chain fun t ht => ?_
    obtain ⟨r, -, rfl⟩ := List.mem_map.mp ht
    trivial
  · refine chain fun t ht => ?_
    obtain ⟨r, -, rfl⟩ := List.mem_map.mp ht
    unfold ByteRange.test
    split_ifs <;> trivial

end SelfContained

end Code

/-- What a fragment consumes where it has a width takes at least as much code. -/
structure Fragment.SelfContained (f : Fragment) : Prop where
  code : f.code.SelfContained
  width : ∀ w, f.width = some w → 0 < w ∧ w ≤ f.code.size

namespace Fragment

variable {f g : Fragment}

theorem oneByte_selfContained {tests : Code} (h : tests.SelfContained) :
    (oneByte tests).SelfContained where
  code := h.append (.plain trivial)
  width := by
    rintro w ⟨⟩
    exact ⟨Nat.one_pos, Nat.le_add_left ..⟩

theorem inGroup_selfContained (id : Nat) (h : f.SelfContained) : (f.inGroup id).SelfContained where
  code := .append (.plain trivial) (h.code.append (.plain trivial))
  width := by
    intro w hw
    obtain ⟨hpos, hle⟩ := h.width w hw
    exact ⟨hpos, hle.trans ((Nat.le_add_right ..).trans (Nat.le_add_left ..))⟩

theorem SelfContained.filter_width (h : f.SelfContained) : f.width.filter (· == 0) = none :=
  filter_zero_of_pos fun w hw => (h.width w hw).1

theorem zeroOrOne_selfContained (h : f.SelfContained) : f.zeroOrOne.SelfContained where
  code := h.code.append (.plain trivial)
  width := by
    rw [zeroOrOne, h.filter_width]
    exact nofun

theorem zeroOrMore_selfContained (h : f.SelfContained) : f.zeroOrMore.SelfContained := by
  unfold zeroOrMore
  split
  · exact zeroOrOne_selfContained h
  · refine ⟨h.code.loop, ?_⟩
    rw [h.filter_width]
    exact nofun

theorem oneOrMore_selfContained (h : f.SelfContained) : f.oneOrMore.SelfContained := by
  unfold oneOrMore
  split
  · exact h
  · exact ⟨h.code.append (h.code.loop.skip false).block, nofun⟩

theorem quantify_selfContained (q : Quantifier) (h : f.SelfContained) :
    (f.quantify q).SelfContained := by
  cases q with
  | zeroOrMore => exact zeroOrMore_selfContained h
  | oneOrMore => exact oneOrMore_selfContained h
  | zeroOrOne => exact zeroOrOne_selfContained h

theorem either_selfContained (hf : f.SelfContained) (hg : g.SelfContained) :
    (f.either g).SelfContained where
  code := hf.code.append (hg.code.skip true)
  width := by
    intro w hw
    obtain ⟨hpos, hle⟩ := hf.width w (widthJoin_eq_some.mp hw).1
    exact ⟨hpos, hle.trans (Nat.le_add_right ..)⟩

end Fragment

/-! ### Branches -/

namespace Branch

variable {fs : List Fragment} {target : Nat → Prop} {pc middle undoSize : Nat}

/-- The bytes that the terms before a term have consumed are at most the bytes
of their code, and there are some as soon as there are terms. -/
theorem before_bounds {position w : Nat} {before : Option Nat} {t : PlacedTerm}
    (hfs : ∀ f ∈ fs, f.SelfContained) (ht : t ∈ place position before fs)
    (hw : t.before = some w) : ∃ v, before = some v ∧ v ≤ w ∧ (position < t.position → v < w) ∧
      w ≤ v + (fs.map (·.code.size)).sum := by
  induction fs generalizing position before with
  | nil => cases ht
  | cons f fs ih =>
    rcases List.mem_cons.mp ht with rfl | ht
    · exact ⟨w, hw, Nat.le_refl w, fun h => absurd h (Nat.lt_irrefl _), Nat.le_add_right ..⟩
    · obtain ⟨u, hu, huw, -, hle⟩ := ih (fun g hg => hfs g (List.mem_cons_of_mem f hg)) ht
      obtain ⟨v, x, hv, hx, rfl⟩ := widthSum_eq_some.mp hu
      obtain ⟨hpos, hsize⟩ := (hfs f (List.mem_cons_self ..)).width x hx
      rw [List.map_cons, List.sum_cons]
      exact ⟨v, hv, by omega, fun _ => by omega, by omega⟩

theorem width_bounds {b : Branch} {w : Nat} (hfs : ∀ f ∈ fs, f.SelfContained)
    (hw : (fs.foldl push b).width = some w) : ∃ v, b.width = some v ∧ v ≤ w ∧
      (fs ≠ [] → v < w) ∧ w ≤ v + (fs.map (·.code.size)).sum := by
  induction fs generalizing b with
  | nil => exact ⟨w, hw, Nat.le_refl w, fun h => absurd rfl h, Nat.le_add_right ..⟩
  | cons f fs ih =>
    obtain ⟨u, hu, huw, -, hle⟩ := ih (fun g hg => hfs g (List.mem_cons_of_mem f hg)) hw
    obtain ⟨v, x, hv, hx, rfl⟩ := widthSum_eq_some.mp hu
    obtain ⟨hpos, hsize⟩ := (hfs f (List.mem_cons_self ..)).width x hx
    rw [List.map_cons, List.sum_cons]
    exact ⟨v, hv, by omega, fun _ => by omega, by omega⟩

theorem size_guarded (ps : List PlacedTerm) : (guarded undoSize ps.reverse).size =
    (ps.map (·.fragment.code.size + jumpWidth)).sum := by
  induction ps with
  | nil => rfl
  | cons t ps ih =>
    have hexit : (Code.piece (exit undoSize (guarded undoSize ps.reverse).size t)).size =
      jumpWidth := width_exit _ _ t
    rw [guarded_cons, Code.size_append, Code.size_append, hexit, ih, List.map_cons, List.sum_cons,
      Nat.add_assoc]

theorem sum_sizes_le (position : Nat) (before : Option Nat) :
    (fs.map (·.code.size)).sum ≤ (guarded undoSize (place position before fs).reverse).size := by
  rw [size_guarded]
  induction fs generalizing position before with
  | nil => exact Nat.le_refl 0
  | cons f fs ih =>
    have := ih (position + 1) (widthSum before f.width)
    simp only [place, List.map_cons, List.sum_cons]
    omega

/-! ### Handlers -/

theorem handlers_closed (cs : List Nat) : (handlers cs.reverse).Closed := by
  induction cs with
  | nil => exact Code.closed_nil
  | cons c cs ih =>
    have hrewind : (Code.piece (.rewind c)).Closed := Code.closed_piece fun _ _ => trivial
    rw [handlers_cons]
    split
    · exact hrewind
    · exact hrewind.append (ih.skip false)

theorem handlers_fitIn {cs : List Nat} {n : Nat} (h : ∀ c ∈ cs, 0 < c ∧ c ≤ n) :
    (handlers cs.reverse).FitsIn n := by
  induction cs with
  | nil => exact fun p hp => nomatch hp
  | cons c cs ih =>
    have hfirst : (Code.piece (.rewind c)).FitsIn n :=
      Code.fitsIn_piece.mpr (h c (List.mem_cons_self ..))
    have hrest := ih fun d hd => h d (List.mem_cons_of_mem c hd)
    rw [handlers_cons]
    split
    · exact hfirst
    · exact Code.fitsIn_append.mpr
        ⟨hfirst, Code.fitsIn_append.mpr ⟨Code.fitsIn_piece.mpr trivial, hrest⟩⟩

theorem handlers_cut {cs : List Nat} {k : Nat} (hk : k < cs.length)
    (h : (handlers cs.reverse).CutsAt target pc) : target (pc + jumpWidth * (2 * k)) := by
  induction cs generalizing pc k with
  | nil => cases hk
  | cons c cs ih =>
    rw [handlers_cons] at h
    cases k with
    | zero => split at h <;> exact h.start
    | succ k =>
      have hlast : cs ≠ [] := by
        rintro rfl
        exact absurd hk (by simp)
      rw [if_neg (size_handlers_eq_zero.not.mpr hlast)] at h
      obtain ⟨-, hmore⟩ := Code.cutsAt_append.mp h
      obtain ⟨-, hrest⟩ := Code.cutsAt_append.mp hmore
      have hpc : pc + jumpWidth * (2 * (k + 1)) =
          pc + jumpWidth + jumpWidth + jumpWidth * (2 * k) := by
        simp only [jumpWidth]
        omega
      rw [hpc]
      exact ih (Nat.lt_of_succ_lt_succ hk) hrest

theorem undo_closed {b : Branch} (hb : b.terms = (place 0 (some 0) fs).reverse) :
    b.undo.Closed := by
  rw [undo_eq hb]
  split_ifs
  · exact Code.closed_nil
  · exact (handlers_closed _).skip true

theorem undo_fitsIn {b : Branch} (hfs : ∀ f ∈ fs, f.SelfContained)
    (hb : b.terms = (place 0 (some 0) fs).reverse) :
    b.undo.FitsIn (fs.map (·.code.size)).sum := by
  rw [undo_eq hb]
  split_ifs
  · exact fun p hp => nomatch hp
  · refine Code.fitsIn_append.mpr ⟨Code.fitsIn_piece.mpr trivial, handlers_fitIn ?_⟩
    intro count hcount
    obtain ⟨t, ht, hbefore⟩ := List.mem_filterMap.mp hcount
    split_ifs at hbefore with hposition
    obtain ⟨v, hv, -, hlt, hle⟩ := before_bounds hfs ht hbefore
    cases hv
    rw [Nat.zero_add] at hle
    exact ⟨hlt (Nat.pos_of_ne_zero hposition), hle⟩

theorem undo_cut {b : Branch} (hb : b.terms = (place 0 (some 0) fs).reverse)
    (h : b.undo.CutsAt target pc) {t : PlacedTerm} {q w : Nat} (ht : t ∈ place 0 (some 0) fs)
    (hq : t.position = q + 1) (hw : t.before = some w) :
    target (pc + jumpWidth * (2 * q + 1)) := by
  have hlt := (List.getElem?_eq_some_iff.mp (getElem?_counts ht hq hw)).1
  have hne : counts (place 0 (some 0) fs) ≠ [] := List.ne_nil_of_length_pos (by omega)
  rw [undo_eq hb, if_neg hne] at h
  obtain ⟨-, hhandlers⟩ := Code.cutsAt_append.mp h
  have hpc : pc + jumpWidth * (2 * q + 1) = pc + jumpWidth + jumpWidth * (2 * q) := by
    simp only [jumpWidth]
    omega
  rw [hpc]
  exact handlers_cut hlt hhandlers

/-! ### Terms and their exits -/

theorem exit_fits (undoSize ahead n : Nat) (t : PlacedTerm) : (exit undoSize ahead t).Fits n := by
  unfold exit
  split <;> trivial

theorem guarded_fitsIn {ps : List PlacedTerm} {n : Nat}
    (h : ∀ t ∈ ps, t.fragment.code.FitsIn n) : (guarded undoSize ps.reverse).FitsIn n := by
  induction ps with
  | nil => exact fun p hp => nomatch hp
  | cons t ps ih =>
    rw [guarded_cons]
    exact Code.fitsIn_append.mpr ⟨h t (List.mem_cons_self ..), Code.fitsIn_append.mpr
      ⟨Code.fitsIn_piece.mpr (exit_fits ..), ih fun u hu => h u (List.mem_cons_of_mem t hu)⟩⟩

/-- The exits of a term lead to the end of the undoing code or to a handler. -/
def ExitsOn (target : Nat → Prop) (middle undoSize : Nat) (t : PlacedTerm) : Prop :=
  target (middle + undoSize) ∧
    ∀ q w, t.position = q + 1 → t.before = some w → target (middle + jumpWidth * (2 * q + 1))

theorem exit_landsOn {ahead : Nat} {t : PlacedTerm}
    (h : ExitsOn target (pc + jumpWidth + ahead) undoSize t) :
    (exit undoSize ahead t).LandsOn target pc := by
  unfold exit
  split
  · exact ⟨pc + jumpWidth + ahead + undoSize, by omega, h.1⟩
  · rename_i q w hposition hbefore
    exact ⟨pc + jumpWidth + ahead + jumpWidth * (2 * q + 1), by omega, h.2 q w hposition hbefore⟩
  · trivial

theorem guarded_landsAt {ps : List PlacedTerm} (hclosed : ∀ t ∈ ps, t.fragment.code.Closed)
    (hcuts : (guarded undoSize ps.reverse).CutsAt target pc)
    (hmiddle : middle = pc + (guarded undoSize ps.reverse).size)
    (hexits : ∀ t ∈ ps, ExitsOn target middle undoSize t) :
    (guarded undoSize ps.reverse).LandsAt target pc := by
  induction ps generalizing pc with
  | nil => trivial
  | cons t ps ih =>
    have hwidth : ∀ ahead, (Code.piece (exit undoSize ahead t)).size = jumpWidth :=
      fun ahead => width_exit undoSize ahead t
    rw [guarded_cons] at hcuts hmiddle ⊢
    obtain ⟨hterm, hmore⟩ := Code.cutsAt_append.mp hcuts
    obtain ⟨-, hrest⟩ := Code.cutsAt_append.mp hmore
    simp only [Code.size_append, hwidth, ← Nat.add_assoc] at hmiddle hrest
    refine Code.landsAt_append.mpr ⟨hclosed t (List.mem_cons_self ..) hterm,
      Code.landsAt_append.mpr ⟨Code.landsAt_piece.mpr ?_, ?_⟩⟩
    · apply exit_landsOn
      rw [← hmiddle]
      exact hexits t (List.mem_cons_self ..)
    · rw [hwidth]
      exact ih (fun u hu => hclosed u (List.mem_cons_of_mem t hu)) hrest hmiddle
        fun u hu => hexits u (List.mem_cons_of_mem t hu)

theorem mem_of_mem_place {position : Nat} {before : Option Nat} {t : PlacedTerm}
    (ht : t ∈ place position before fs) : t.fragment ∈ fs := by
  induction fs generalizing position before with
  | nil => cases ht
  | cons f fs ih =>
    rcases List.mem_cons.mp ht with rfl | ht
    · exact List.mem_cons_self ..
    · exact List.mem_cons_of_mem f (ih ht)

theorem close_selfContained {b : Branch} (hfs : ∀ f ∈ fs, f.SelfContained)
    (hb : b = fs.foldl push {}) (htwo : 2 ≤ b.terms.length) : b.close.SelfContained := by
  have hterms : b.terms = (place 0 (some 0) fs).reverse := by
    rw [hb, terms_foldl_push]
    exact List.append_nil _
  have hne : fs ≠ [] := by
    rintro rfl
    rw [hterms] at htwo
    cases htwo
  have hsizes : (fs.map (·.code.size)).sum ≤ (guarded b.undo.size b.terms).size := by
    rw [hterms]
    exact sum_sizes_le 0 (some 0)
  have hterm : ∀ t ∈ place 0 (some 0) fs, t.fragment.SelfContained :=
    fun t ht => hfs _ (mem_of_mem_place ht)
  rw [close_of_two_le htwo]
  refine ⟨⟨?_, ?_⟩, ?_⟩
  · intro target pc hcuts
    obtain ⟨hguarded, hundo⟩ := Code.cutsAt_append.mp hcuts
    refine Code.landsAt_append.mpr ⟨?_, undo_closed hterms hundo⟩
    rw [hterms] at hguarded hundo ⊢
    -- every exit lands on a cut of the undoing code
    refine guarded_landsAt (fun t ht => (hterm t ht).code.closed) hguarded rfl ?_
    exact fun t ht => ⟨hundo.stop, fun q w hq hw => undo_cut hterms hundo ht hq hw⟩
  · refine Code.fitsIn_append.mpr ⟨?_, ?_⟩
    · have hguarded : (guarded b.undo.size b.terms).FitsIn (fs.map (·.code.size)).sum := by
        rw [hterms]
        refine guarded_fitsIn fun t ht => (hterm t ht).code.fits.mono ?_
        exact List.le_sum_of_mem (List.mem_map_of_mem (mem_of_mem_place ht))
      exact hguarded.mono (hsizes.trans (Nat.le_add_right ..))
    · exact (undo_fitsIn hfs hterms).mono (hsizes.trans (Nat.le_add_right ..))
  · intro w hw
    rw [hb] at hw
    obtain ⟨v, hv, -, hlt, hle⟩ := width_bounds hfs hw
    cases hv
    rw [Nat.zero_add] at hle
    exact ⟨hlt hne, hle.trans (hsizes.trans (Nat.le_add_right ..))⟩

end Branch

/-! ### Expressions -/

namespace Expr

theorem fragment_selfContained (e : Expr) : e.fragment.SelfContained := by
  induction e using induction_on_terms with
  | any => exact Fragment.oneByte_selfContained (.plain trivial)
  | byte b => exact Fragment.oneByte_selfContained (.plain trivial)
  | oneOf c => exact Fragment.oneByte_selfContained (.tests c)
  | group id body ih => exact Fragment.inGroup_selfContained id ih
  | quantified q body ih => exact Fragment.quantify_selfContained q ih
  | cat first rest ih =>
    rw [fragment_eq_close]
    refine Branch.close_selfContained ?_ rfl (two_le_terms_branchOf (terms_ne_nil rest))
    intro f hf
    obtain ⟨t, ht, rfl⟩ := List.mem_map.mp hf
    exact ih t ht
  | alt first rest ih₁ ih₂ =>
    rw [fragment_alt]
    exact Fragment.either_selfContained ih₁ ih₂

theorem openCode_selfContained (e : Expr) : e.openCode.SelfContained := by
  have hreject : (Code.piece .rejectUnlessFlag).SelfContained :=
    ⟨Code.closed_piece fun _ _ => trivial, Code.fitsIn_piece.mpr trivial⟩
  refine openCode_induction (motive := Code.SelfContained)
    (fun u => u.fragment_selfContained.code) (fun c d hc hd => ?_) (fun c d hc hd => ?_) e
  · exact hc.append (hreject.append hd)
  · exact hc.append (hd.skip true)

end Expr

end PatternEngine

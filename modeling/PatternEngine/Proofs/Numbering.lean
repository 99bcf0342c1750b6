import PatternEngine.Proofs.Parsing

/-!
# The numbers of groups

A group takes its number when it is opened. So the numbers that the parser holds
at any time are those from one to the number of groups opened, in the order of
their opening parentheses, and the parser opens no more groups than there are
numbers of one byte.
-/

namespace PatternEngine

/-- The numbers of the groups of an expression in the order of their opening
parentheses. -/
def Expr.ids : Expr → List Nat
  | .any | .byte _ | .oneOf _ => []
  | .group id body => id :: body.ids
  | .quantified _ body => body.ids
  | .cat first rest | .alt first rest => first.ids ++ rest.ids

theorem Expr.ids_foldl {join : Expr → Expr → Expr}
    (hjoin : ∀ a b, (join a b).ids = a.ids ++ b.ids) (es : List Expr) (last : Expr) :
    (es.foldl (fun rest e => join e rest) last).ids = es.reverse.flatMap ids ++ last.ids := by
  induction es generalizing last with
  | nil => rfl
  | cons e es ih =>
    rw [List.foldl_cons, ih, hjoin, List.reverse_cons, List.flatMap_append, List.append_assoc,
      List.flatMap_singleton]

theorem ids_of_leaf? {t : Token} {e : Expr} (h : t.leaf? = some e) : e.ids = [] := by
  unfold Token.leaf? at h
  split at h
  · obtain ⟨b, -, rfl⟩ := Option.map_eq_some_iff.mp h
    rfl
  · cases h
    rfl
  · obtain ⟨c, -, rfl⟩ := Option.map_eq_some_iff.mp h
    rfl
  · cases h

def Level.ids (l : Level) : List Nat :=
  l.branches.reverse.flatMap Expr.ids ++ l.terms.reverse.flatMap Expr.ids

def OpenGroup.ids (g : OpenGroup) : List Nat := g.outer.ids ++ [g.id]

def Phase.ids : Phase → List Nat
  | .operand => []
  | .term last _ => last.ids

namespace ParseState

/-- The numbers of all groups that a state holds, closed and open. -/
def ids (s : ParseState) : List Nat :=
  s.enclosing.reverse.flatMap OpenGroup.ids ++ (s.level.ids ++ s.phase.ids)

/-- The groups of a state have the numbers up to the number of groups opened. -/
def Numbered (s : ParseState) : Prop := s.ids = List.range' 1 s.groups

end ParseState

namespace Level

variable (l : Level) (last : Expr)

theorem ids_branch : (l.branch last).ids = l.terms.reverse.flatMap Expr.ids ++ last.ids :=
  Expr.ids_foldl (fun _ _ => rfl) l.terms last

theorem ids_close : (l.close last).ids = l.ids ++ last.ids := by
  rw [ids, List.append_assoc, ← ids_branch]
  exact Expr.ids_foldl (fun _ _ => rfl) l.branches _

theorem ids_concatenate :
    ({ l with terms := last :: l.terms } : Level).ids = l.ids ++ last.ids := by
  simp [ids]

theorem ids_alternate : (⟨l.branch last :: l.branches, []⟩ : Level).ids = l.ids ++ last.ids := by
  simp [ids, ids_branch]

end Level

/-- Only an opening parenthesis adds a number, and it is the next one. -/
theorem Takes.numbered {s next : ParseState} {t : Token} (h : Takes s t next)
    (hs : s.Numbered) : next.Numbered := by
  unfold ParseState.Numbered ParseState.ids at *
  cases h with
  | leaf he =>
    rw [Phase.ids, ids_of_leaf? he]
    exact hs
  | groupOpen =>
    -- the level at hand moves into the enclosing ones, and the new number follows it
    simp only [Phase.ids, List.append_nil] at hs
    have hstart : ({} : Level).ids = [] := rfl
    rw [List.range'_1_concat, ← hs, List.reverse_cons, List.flatMap_append, List.flatMap_singleton,
      OpenGroup.ids, hstart, Nat.add_comm 1]
    simp only [Phase.ids, List.append_nil, List.append_assoc]
  | concatenate =>
    rw [Level.ids_concatenate]
    simpa only [Phase.ids, List.append_nil] using hs
  | alternate =>
    rw [Level.ids_alternate]
    simpa only [Phase.ids, List.append_nil] using hs
  | quantify => exact hs
  | groupClose =>
    rw [List.reverse_cons, List.flatMap_append, List.flatMap_singleton] at hs
    rw [Phase.ids, Expr.ids, Level.ids_close]
    simpa only [OpenGroup.ids, Phase.ids, List.append_assoc, List.cons_append, List.nil_append]
      using hs

theorem TakesAll.numbered {s last : ParseState} {ts : List Token} (h : TakesAll s ts last)
    (hs : s.Numbered) : last.Numbered := by
  induction h with
  | nil => exact hs
  | cons h _ ih => exact ih (h.numbered hs)

/-- The groups of a finished expression are numbered without a gap. -/
theorem ids_of_finish {s : ParseState} {stop : Nat} {e : Expr} (h : s.finish stop = .ok e)
    (hs : s.Numbered) : e.ids = List.range' 1 s.groups := by
  obtain ⟨n, gs, l, phase⟩ := s
  cases phase with
  | operand => cases h
  | term last q =>
    cases gs with
    | cons => cases h
    | nil =>
      cases h
      rw [Level.ids_close]
      exact hs

/-- Group numbers as they are written: none is missing, and neither a number nor
how many there are is cut short to a byte. -/
structure NumbersFit (ids : List Nat) (groups : Nat) : Prop where
  ids_eq : ids = List.range' 1 groups
  groups_le : groups ≤ maxGroups
  toNat_groups : (UInt8.ofNat groups).toNat = groups
  toNat_id : ∀ id ∈ ids, (UInt8.ofNat id).toNat = id

theorem NumbersFit.of_le {ids : List Nat} {groups : Nat} (hids : ids = List.range' 1 groups)
    (hgroups : groups ≤ maxGroups) : NumbersFit ids groups := by
  have hbyte : ∀ n ≤ groups, (UInt8.ofNat n).toNat = n := by
    intro n hn
    have hlt : n < UInt8.size := Nat.lt_succ_of_le (hn.trans hgroups)
    exact UInt8.toNat_ofNat_of_lt' hlt
  refine ⟨hids, hgroups, hbyte groups (Nat.le_refl _), fun id hid => hbyte id ?_⟩
  rw [hids, List.mem_range'_1] at hid
  omega

theorem numbersFit_of_parse {tokens : List Token} {parsed : Parsed}
    (h : parse tokens = .ok parsed) : NumbersFit parsed.expr.ids parsed.groups := by
  obtain ⟨last, hlast, hfinish, hgroups⟩ := takesAll_of_parseFrom h
  refine .of_le ?_ (groups_le_of_parseFrom h (Nat.zero_le _))
  rw [← hgroups]
  exact ids_of_finish hfinish (hlast.numbered rfl)

theorem numbersFit_of_parse_error {tokens : List Token} {halt : Halt}
    (h : parse tokens = .error halt) : NumbersFit halt.state.ids halt.state.groups := by
  obtain ⟨before, hbefore, hgroups, -⟩ := takesAll_of_parseFrom_error h (Nat.zero_le _)
  exact .of_le (hbefore.numbered rfl) hgroups

end PatternEngine

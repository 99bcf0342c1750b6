import PatternEngine.Proofs.Classes

/-!
# The grammar of class bodies

The body of a class is a row of entries, read from left to right. An entry is a
byte by itself, or two bytes in order with a dash between them; a byte before a
dash that something follows never stands by itself. Main statement: a class is
read from exactly the bodies that are rows of ASCII entries, and a body is such a
row in at most one way.
-/

namespace PatternEngine

theorem ByteRange.eq_of_bounds {r s : ByteRange} (hlo : r.lo = s.lo) (hhi : r.hi = s.hi) :
    r = s := by
  cases r
  cases s
  cases hlo
  cases hhi
  rfl

theorem ByteRange.ofBounds?_eq_some {lo hi : UInt8} {r : ByteRange} :
    ofBounds? lo hi = some r ↔ r.lo = lo ∧ r.hi = hi := by
  unfold ofBounds?
  split
  · rw [Option.some.injEq]
    exact ⟨fun h => h ▸ ⟨rfl, rfl⟩, fun h => eq_of_bounds h.1.symm h.2.symm⟩
  · rename_i hlt
    refine ⟨nofun, ?_⟩
    rintro ⟨rfl, rfl⟩
    exact absurd r.lo_le_hi hlt

namespace CharClass

inductive Entry where
  | one (b : UInt8)
  | span (r : ByteRange)
  deriving DecidableEq, Repr

def Entry.item : Entry → ByteRange
  | .one b => .single b
  | .span r => r

/-- Entries stand at the front of some bytes, with the last of the bytes left. -/
inductive Splits : List UInt8 → List Entry → List UInt8 → Prop where
  | nil {rest : List UInt8} : Splits rest [] rest
  | one {b : UInt8} {bs rest : List UInt8} {es : List Entry}
      (hdash : ∀ hi after, bs ≠ 45 :: hi :: after) (h : Splits bs es rest) :
    Splits (b :: bs) (.one b :: es) rest
  | span {r : ByteRange} {bs rest : List UInt8} {es : List Entry} (h : Splits bs es rest) :
    Splits (r.lo :: 45 :: r.hi :: bs) (.span r :: es) rest

/-- Two bytes in the wrong order with a dash between them. -/
def StartsReversed (bs : List UInt8) : Prop :=
  ∃ lo hi after, bs = lo :: 45 :: hi :: after ∧ hi < lo

/-- The bytes of a body without one caret in front. -/
def listedBytes (body : String) : List UInt8 :=
  let bytes := body.toUTF8.data.toList
  if bytes.head? = some 94 then bytes.tail else bytes

/-! ### Rows of entries -/

section
variable {b lo hi : UInt8} {bs rest : List UInt8} {es fs : List Entry}

theorem Splits.eq_of_nil (h : Splits bs [] rest) : bs = rest := by
  cases h
  rfl

theorem splits_span_iff : Splits (lo :: 45 :: hi :: bs) es [] ↔
    ∃ r fs, r.lo = lo ∧ r.hi = hi ∧ es = .span r :: fs ∧ Splits bs fs [] := by
  constructor
  · intro h
    cases h with
    | one hdash _ => exact absurd rfl (hdash hi bs)
    | span h => exact ⟨_, _, rfl, rfl, rfl, h⟩
  · rintro ⟨r, fs, rfl, rfl, rfl, h⟩
    exact .span h

theorem splits_one_iff (hdash : ∀ hi after, bs ≠ 45 :: hi :: after) :
    Splits (b :: bs) es [] ↔ ∃ fs, es = .one b :: fs ∧ Splits bs fs [] := by
  constructor
  · intro h
    cases h with
    | one _ h => exact ⟨_, rfl, h⟩
    | span _ => exact absurd rfl (hdash _ _)
  · rintro ⟨fs, rfl, h⟩
    exact .one hdash h

theorem Splits.unique (h : Splits bs es []) (h' : Splits bs fs []) : es = fs := by
  generalize hnil : ([] : List UInt8) = stop at h
  induction h generalizing fs with
  | nil =>
    subst hnil
    cases h'
    rfl
  | one hdash _ ih =>
    obtain ⟨gs, rfl, hrest⟩ := (splits_one_iff hdash).mp h'
    rw [ih hrest hnil]
  | span _ ih =>
    obtain ⟨r, gs, hlo, hhi, rfl, hrest⟩ := splits_span_iff.mp h'
    rw [ih hrest hnil, ByteRange.eq_of_bounds hlo hhi]

/-- A row of entries meets no bytes in the wrong order. -/
theorem Splits.not_startsReversed (h : Splits bs es rest) (h' : Splits bs fs []) :
    ¬ StartsReversed rest := by
  induction h generalizing fs with
  | nil =>
    rintro ⟨lo, hi, after, rfl, hlt⟩
    obtain ⟨r, gs, rfl, rfl, -, -⟩ := splits_span_iff.mp h'
    exact absurd r.lo_le_hi (UInt8.not_le.mpr hlt)
  | one hdash _ ih =>
    obtain ⟨gs, -, hrest⟩ := (splits_one_iff hdash).mp h'
    exact ih hrest
  | span _ ih =>
    obtain ⟨r, gs, -, -, -, hrest⟩ := splits_span_iff.mp h'
    exact ih hrest

end

/-- Bytes are a row of entries, unless the row comes to a wrong order first. -/
theorem exists_splits (bs : List UInt8) :
    ∃ es rest, Splits bs es rest ∧ (rest = [] ∨ StartsReversed rest) := by
  induction hlength : bs.length using Nat.strong_induction_on generalizing bs with
  | _ n ih =>
    subst hlength
    cases bs with
    | nil => exact ⟨[], [], .nil, .inl rfl⟩
    | cons b bs =>
      by_cases hdash : ∃ hi after, bs = 45 :: hi :: after
      · obtain ⟨hi, after, rfl⟩ := hdash
        by_cases hle : b ≤ hi
        · obtain ⟨es, rest, hes, hrest⟩ := ih after.length (by simp +arith) after rfl
          exact ⟨.span ⟨b, hi, hle⟩ :: es, rest, .span (r := ⟨b, hi, hle⟩) hes, hrest⟩
        · exact ⟨[], _, .nil, .inr ⟨b, hi, after, rfl, UInt8.not_le.mp hle⟩⟩
      · push Not at hdash
        obtain ⟨es, rest, hes, hrest⟩ := ih bs.length (Nat.lt_succ_self _) bs rfl
        exact ⟨.one b :: es, rest, .one hdash hes, hrest⟩

/-! ### Characters and bytes -/

def charBytes (cs : List Char) : List UInt8 := cs.flatMap String.utf8EncodeChar

theorem toList_toUTF8 (body : String) : body.toUTF8.data.toList = charBytes body.toList := by
  conv_lhs => rw [← String.ofList_toList (s := body)]
  rw [String.toUTF8_eq_toByteArray, String.toByteArray_ofList, List.utf8Encode,
    List.data_toByteArray, charBytes]

theorem utf8EncodeChar_of_ascii {c : Char} (h : c.val < 128) :
    String.utf8EncodeChar c = [c.toUInt8] := by
  have hle : c.val ≤ 127 := UInt32.le_iff_toNat_le.mpr (Nat.le_of_lt_succ h)
  exact String.utf8EncodeChar_eq_singleton (Char.utf8Size_eq_one_iff.mpr hle)

/-- A character past ASCII starts with a byte past ASCII. -/
theorem utf8EncodeChar_of_not_ascii {c : Char} (h : ¬ c.val < 128) :
    ∃ b bs, String.utf8EncodeChar c = b :: bs ∧ 128 ≤ b := by
  have hval : 128 ≤ c.val.toNat := Nat.le_of_not_lt h
  have hmax := c.val.toNat_lt
  have hhigh : ∀ k n, 128 ≤ k → k + n < 256 → 128 ≤ UInt8.ofNat (n + k) := by
    intro k n hk hlt
    rw [UInt8.le_iff_toNat_le, UInt8.toNat_ofNat', Nat.mod_eq_of_lt (by omega)]
    show 128 ≤ n + k
    omega
  unfold String.utf8EncodeChar
  simp only
  rw [if_neg (by omega)]
  split_ifs
  · exact ⟨_, _, rfl, hhigh 192 _ (by decide) (by omega)⟩
  · exact ⟨_, _, rfl, hhigh 224 _ (by decide) (by omega)⟩
  · exact ⟨_, _, rfl, hhigh 240 _ (by decide) (by omega)⟩

theorem toUInt8_lt_of_ascii {c : Char} (h : c.val < 128) : c.toUInt8 < 128 := by
  have hval : c.val.toNat < 128 := h
  rw [UInt8.lt_iff_toNat_lt, Char.toUInt8, UInt32.toNat_toUInt8, Nat.mod_eq_of_lt (by omega)]
  exact hval

theorem eq_of_toUInt8_eq {c d : Char} (hc : c.val < 128) (hd : d.val < 128)
    (h : c.toUInt8 = d.toUInt8) : c = d := by
  have hcval : c.val.toNat < 128 := hc
  have hdval : d.val.toNat < 128 := hd
  have hmod := congrArg UInt8.toNat h
  simp only [Char.toUInt8, UInt32.toNat_toUInt8] at hmod
  rw [Nat.mod_eq_of_lt (by omega), Nat.mod_eq_of_lt (by omega)] at hmod
  exact Char.ext (UInt32.toNat_inj.mp hmod)

section
variable {cs : List Char}

theorem charBytes_of_ascii (h : ∀ c ∈ cs, c.val < 128) : charBytes cs = cs.map Char.toUInt8 := by
  rw [charBytes, List.map_eq_flatMap]
  exact List.flatMap_congr fun c hc => utf8EncodeChar_of_ascii (h c hc)

theorem ascii_charBytes_iff : (∀ b ∈ charBytes cs, b < 128) ↔ ∀ c ∈ cs, c.val < 128 := by
  constructor
  · intro h c hc
    by_contra hascii
    obtain ⟨b, bs, hbytes, hle⟩ := utf8EncodeChar_of_not_ascii hascii
    have hmem : b ∈ charBytes cs := List.mem_flatMap.mpr ⟨c, hc, hbytes ▸ List.mem_cons_self ..⟩
    exact absurd (h b hmem) (UInt8.not_lt.mpr hle)
  · intro h b hb
    rw [charBytes_of_ascii h] at hb
    obtain ⟨c, hc, rfl⟩ := List.mem_map.mp hb
    exact toUInt8_lt_of_ascii (h c hc)

/-- A caret is the only character that starts with the byte of a caret. -/
theorem head?_charBytes_eq_caret : (charBytes cs).head? = some 94 ↔ cs.head? = some '^' := by
  cases cs with
  | nil => exact ⟨nofun, nofun⟩
  | cons c cs =>
    rw [charBytes, List.flatMap_cons, List.head?_cons, Option.some.injEq]
    by_cases hc : c.val < 128
    · rw [utf8EncodeChar_of_ascii hc, List.singleton_append, List.head?_cons, Option.some.injEq]
      exact ⟨fun h => eq_of_toUInt8_eq hc (by decide) h, fun h => h ▸ rfl⟩
    · obtain ⟨b, bs, hbytes, hle⟩ := utf8EncodeChar_of_not_ascii hc
      rw [hbytes, List.cons_append, List.head?_cons, Option.some.injEq]
      constructor
      · rintro rfl
        exact absurd hle (by decide)
      · rintro rfl
        exact absurd (show '^'.val < 128 by decide) hc

theorem listedBytes_eq (body : String) :
    listedBytes body = charBytes (caret body.toList).2 ∧
      ((caret body.toList).1 = true ↔ body.toUTF8.data.toList.head? = some 94) := by
  simp only [listedBytes, toList_toUTF8, head?_charBytes_eq_caret]
  split
  · rename_i hhead
    rw [caret_of_head?_eq hhead]
    obtain ⟨rest, hrest⟩ := List.head?_eq_some_iff.mp hhead
    rw [hrest]
    exact ⟨rfl, by simp⟩
  · rename_i hhead
    rw [caret_of_head?_ne hhead]
    exact ⟨rfl, by simpa using hhead⟩

theorem asciiByte?_eq_some {c : Char} {b : UInt8} :
    asciiByte? c = some b ↔ c.val < 128 ∧ c.toUInt8 = b := by
  unfold asciiByte?
  split <;> simp_all

theorem charBytes_cons_of_ascii {c : Char} (h : c.val < 128) :
    charBytes (c :: cs) = c.toUInt8 :: charBytes cs := by
  rw [charBytes, List.flatMap_cons, utf8EncodeChar_of_ascii h]
  rfl

/-- Characters that do not start with a dash before another one are bytes that
do not. -/
theorem charBytes_ne_dash (h : ∀ c ∈ cs, c.val < 128) (hdash : ∀ hi after, cs ≠ '-' :: hi :: after)
    (hi : UInt8) (after : List UInt8) : charBytes cs ≠ 45 :: hi :: after := by
  intro hbytes
  rw [charBytes_of_ascii h] at hbytes
  obtain ⟨d, ds, rfl, hd, hds⟩ := List.map_eq_cons_iff.mp hbytes
  obtain ⟨e, es, rfl, -, -⟩ := List.map_eq_cons_iff.mp hds
  obtain rfl : d = '-' := eq_of_toUInt8_eq (h d (List.mem_cons_self ..)) (by decide) hd
  exact hdash e es rfl

theorem itemsFrom_eq_some {done items : List ByteRange} : itemsFrom done cs = some items ↔
    (∀ c ∈ cs, c.val < 128) ∧
      ∃ es, Splits (charBytes cs) es [] ∧ items = done.reverse ++ es.map Entry.item := by
  fun_induction itemsFrom done cs with
  | case1 done =>
    rw [Option.some.injEq]
    constructor
    · rintro rfl
      exact ⟨nofun, [], .nil, by simp⟩
    · rintro ⟨-, es, hes, rfl⟩
      cases hes
      simp
  | case2 done lo hi rest ih =>
    simp only [Option.bind_eq_bind, Option.bind_eq_some_iff, asciiByte?_eq_some,
      ByteRange.ofBounds?_eq_some, ih, List.forall_mem_cons]
    constructor
    · rintro ⟨_, ⟨hlo, rfl⟩, _, ⟨hhi, rfl⟩, r, ⟨hrlo, hrhi⟩, hrest, es, hes, rfl⟩
      refine ⟨⟨hlo, by decide, hhi, hrest⟩, .span r :: es, ?_, by simp [Entry.item]⟩
      rw [charBytes_cons_of_ascii hlo, charBytes_cons_of_ascii (by decide),
        charBytes_cons_of_ascii hhi]
      exact splits_span_iff.mpr ⟨r, es, hrlo, hrhi, rfl, hes⟩
    · rintro ⟨⟨hlo, hdash, hhi, hrest⟩, es, hes, rfl⟩
      rw [charBytes_cons_of_ascii hlo, charBytes_cons_of_ascii hdash,
        charBytes_cons_of_ascii hhi] at hes
      obtain ⟨r, fs, hrlo, hrhi, rfl, hfs⟩ := splits_span_iff.mp hes
      exact ⟨_, ⟨hlo, rfl⟩, _, ⟨hhi, rfl⟩, r, ⟨hrlo, hrhi⟩, hrest, fs, hfs, by simp [Entry.item]⟩
  | case3 done c rest hdash ih =>
    simp only [Option.bind_eq_bind, Option.bind_eq_some_iff, asciiByte?_eq_some, ih,
      List.forall_mem_cons]
    constructor
    · rintro ⟨_, ⟨hc, rfl⟩, hrest, es, hes, rfl⟩
      refine ⟨⟨hc, hrest⟩, .one c.toUInt8 :: es, ?_, by simp [Entry.item]⟩
      rw [charBytes_cons_of_ascii hc]
      exact .one (charBytes_ne_dash hrest hdash) hes
    · rintro ⟨⟨hc, hrest⟩, es, hes, rfl⟩
      rw [charBytes_cons_of_ascii hc] at hes
      obtain ⟨fs, rfl, hfs⟩ := (splits_one_iff (charBytes_ne_dash hrest hdash)).mp hes
      exact ⟨_, ⟨hc, rfl⟩, hrest, fs, hfs, by simp [Entry.item]⟩

end

/-- A class is read from a body exactly when the bytes behind the caret are a row
of ASCII entries, and there is one; it is negated by the caret and has the items
of the entries. -/
theorem ofBody?_eq_some_iff_splits {body : String} {c : CharClass} : ofBody? body = some c ↔
    (c.negated = true ↔ body.toUTF8.data.toList.head? = some 94) ∧
      listedBytes body ≠ [] ∧ (∀ b ∈ listedBytes body, b < 128) ∧
      ∃ es, Splits (listedBytes body) es [] ∧ es.map Entry.item = c.items := by
  obtain ⟨hlisted, hcaret⟩ := listedBytes_eq body
  rw [ofBody?_eq_some, itemsFrom_eq_some, hlisted, ← hcaret, ascii_charBytes_iff,
    ← Bool.eq_iff_iff]
  simp only [List.reverse_nil, List.nil_append]
  refine and_congr_right fun _ => ⟨?_, ?_⟩
  · rintro ⟨hascii, es, hes, hitems⟩
    refine ⟨?_, hascii, es, hes, hitems.symm⟩
    intro hnil
    rw [hnil] at hes
    cases hes
    exact c.items_ne_nil hitems
  · rintro ⟨-, hascii, es, hes, hitems⟩
    exact ⟨hascii, es, hes, hitems.symm⟩

/-- Nothing is read from no bytes, from bytes that are not all ASCII, and from a row
of entries that comes to two bytes in the wrong order. -/
theorem ofBody?_eq_none_iff_startsReversed {body : String} : ofBody? body = none ↔
    listedBytes body = [] ∨ (∃ b ∈ listedBytes body, 128 ≤ b) ∨
      ∃ es rest, Splits (listedBytes body) es rest ∧ StartsReversed rest := by
  constructor
  · intro hnone
    by_contra hgood
    push Not at hgood
    obtain ⟨hne, hascii, horder⟩ := hgood
    obtain ⟨es, rest, hes, hrest⟩ := exists_splits (listedBytes body)
    obtain rfl := hrest.resolve_right (horder es rest hes)
    have hitems : es.map Entry.item ≠ [] := by
      intro hnil
      obtain rfl := List.map_eq_nil_iff.mp hnil
      exact hne hes.eq_of_nil
    have hsome : ofBody? body = some ⟨(caret body.toList).1, es.map Entry.item, hitems⟩ :=
      ofBody?_eq_some_iff_splits.mpr ⟨(listedBytes_eq body).2, hne,
        fun b hb => UInt8.not_le.mp (hascii b hb), es, hes, rfl⟩
    rw [hnone] at hsome
    cases hsome
  · intro hbad
    rw [Option.eq_none_iff_forall_ne_some]
    intro c hc
    obtain ⟨-, hne, hascii, fs, hfs, -⟩ := ofBody?_eq_some_iff_splits.mp hc
    rcases hbad with hnil | ⟨b, hb, hle⟩ | ⟨es, rest, hes, hreversed⟩
    · exact hne hnil
    · exact absurd (hascii b hb) (UInt8.not_lt.mpr hle)
    · exact hes.not_startsReversed hfs hreversed

/-- A body is read as a class with some items exactly when a caret in front says
whether it is negated and what follows is ASCII, at least one byte of it, and a
row of entries with these items. It is such a row in at most one way. Otherwise
nothing is read: the bytes are none, or not all ASCII, or the row of entries comes
to two bytes in the wrong order. -/
theorem ofBody?_reads_rows_of_entries (body : String) :
    (∀ c, ofBody? body = some c ↔
      (c.negated = true ↔ body.toUTF8.data.toList.head? = some 94) ∧
        listedBytes body ≠ [] ∧ (∀ b ∈ listedBytes body, b < 128) ∧
        ∃ es, Splits (listedBytes body) es [] ∧ es.map Entry.item = c.items) ∧
    (∀ es fs, Splits (listedBytes body) es [] → Splits (listedBytes body) fs [] → es = fs) ∧
    (ofBody? body = none ↔ listedBytes body = [] ∨ (∃ b ∈ listedBytes body, 128 ≤ b) ∨
      ∃ es rest, Splits (listedBytes body) es rest ∧ StartsReversed rest) :=
  ⟨fun _ => ofBody?_eq_some_iff_splits, fun _ _ => Splits.unique,
    ofBody?_eq_none_iff_startsReversed⟩

/-- Behind a range a dash is a byte by itself, though a byte follows it. -/
example : (ofBody? "a-b-c").map CharClass.items =
    some [⟨97, 98, by decide⟩, .single 45, .single 99] := by cbv

end CharClass

end PatternEngine

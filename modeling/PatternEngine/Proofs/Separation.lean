import Mathlib
import PatternEngine.Listing

/-!
# Texts that can be told apart

A printed form separates from what follows it when a text that starts with the
form tells which value was printed and what follows. Numbers, quoted bytes,
mnemonics and the other parts of a listing separate from what follows them there:
a number ends where no digit follows, a mnemonic where no letter does, and a
quoted byte ends by itself, because whatever could be taken for its end is
escaped.
-/

namespace PatternEngine

/-- A text does not go on with a character of some kind. -/
def StopsAt (kind : Char → Bool) (rest : List Char) : Prop := ∀ c ∈ rest.head?, kind c = false

/-- A text that starts with a printed form, and goes on in a way that `ends` the
form, tells the value and what follows. -/
def Separates {α : Type} (print : α → List Char) (ends : List Char → Prop) : Prop :=
  ∀ ⦃a b : α⦄ ⦃r s : List Char⦄, ends r → ends s → print a ++ r = print b ++ s → a = b ∧ r = s

theorem stopsAt_nil {kind : Char → Bool} : StopsAt kind [] := nofun

theorem stopsAt_cons {kind : Char → Bool} {c : Char} {rest : List Char} (h : kind c = false) :
    StopsAt kind (c :: rest) := by
  intro d hd
  cases hd
  exact h

theorem not_stopsAt_append {kind : Char → Bool} {u rest : List Char} (hu : u ≠ [])
    (hkind : ∀ c ∈ u, kind c = true) : ¬ StopsAt kind (u ++ rest) := by
  obtain ⟨c, u, rfl⟩ := List.exists_cons_of_ne_nil hu
  intro hstop
  have hc := hstop c rfl
  rw [hkind c (List.mem_cons_self ..)] at hc
  cases hc

theorem takeWhile_append_of_stopsAt {kind : Char → Bool} {u r : List Char}
    (hu : ∀ c ∈ u, kind c = true) (hr : StopsAt kind r) : (u ++ r).takeWhile kind = u := by
  have hrest : r.takeWhile kind = [] := by
    cases r with
    | nil => rfl
    | cons c r => rw [List.takeWhile_cons, hr c rfl]; rfl
  rw [List.takeWhile_append_of_pos hu, hrest, List.append_nil]

namespace Separates

variable {α : Type} {print : α → List Char} {ends : List Char → Prop}

theorem of_read (read : List Char → Option (α × List Char))
    (h : ∀ a r, ends r → read (print a ++ r) = some (a, r)) : Separates print ends := by
  intro a b r s hr hs heq
  have hread := (h a r hr).symm.trans ((congrArg read heq).trans (h b s hs))
  simpa using hread

/-- Forms of one kind of characters separate where no such character follows. -/
theorem of_kind {kind : Char → Bool} (hkind : ∀ a, ∀ c ∈ print a, kind c = true)
    (hprint : Function.Injective print) : Separates print (StopsAt kind) := by
  intro a b r s hr hs heq
  have hsame : print a = print b := by
    rw [← takeWhile_append_of_stopsAt (hkind a) hr, heq, takeWhile_append_of_stopsAt (hkind b) hs]
  rw [hsame] at heq
  exact ⟨hprint hsame, List.append_cancel_left heq⟩

end Separates

/-! ### Numbers -/

theorem toList_toString (n : Nat) : (toString n).toList = Nat.toDigits 10 n := by
  rw [Nat.toString_eq_repr, Nat.toList_repr]

theorem isDigit_of_mem_toDigits {n : Nat} {c : Char} (h : c ∈ Nat.toDigits 10 n) :
    c.isDigit = true := Nat.isDigit_of_mem_toDigits (by decide) (by decide) h

theorem toString_separates :
    Separates (fun n : Nat => (toString n).toList) (StopsAt Char.isDigit) := by
  refine .of_kind (fun n c hc => ?_) (fun m n h => ?_)
  · rw [toList_toString] at hc
    exact isDigit_of_mem_toDigits hc
  · simp only [toList_toString] at h
    rw [← Nat.ofDigitChars_ten_toDigits (n := m), h, Nat.ofDigitChars_ten_toDigits]

namespace Numeral

theorem toList_padded (width n : Nat) :
    ∃ zeros, (padded width n).toList = List.replicate zeros '0' ++ Nat.toDigits 10 n := by
  refine ⟨width - "".length - (toString n).length, ?_⟩
  have hsign : ¬ (n : Int) < 0 := by omega
  simp only [padded, if_neg hsign, String.toList_append, Int.natAbs_natCast, toList_toString,
    String.toList_ofList]
  rfl

theorem isDigit_of_mem_padded (width n : Nat) :
    ∀ c ∈ (padded width n).toList, c.isDigit = true := by
  obtain ⟨zeros, hn⟩ := toList_padded width n
  simp only [hn, List.mem_append, List.mem_replicate]
  rintro c (⟨-, rfl⟩ | hc)
  · rfl
  · exact isDigit_of_mem_toDigits hc

theorem padded_ne_nil (width n : Nat) : (padded width n).toList ≠ [] := by
  obtain ⟨zeros, hn⟩ := toList_padded width n
  rw [hn]
  exact List.append_ne_nil_of_right_ne_nil _ Nat.toDigits_ne_nil

/-- Zeros in front do not change the number that digits stand for. -/
theorem padded_injective (width : Nat) :
    Function.Injective fun n : Nat => (padded width n).toList := by
  refine Function.LeftInverse.injective (g := (Nat.ofDigitChars 10 · 0)) fun n => ?_
  obtain ⟨zeros, hn⟩ := toList_padded width n
  simp only [hn, Nat.ofDigitChars_append, Nat.ofDigitChars_replicate_zero, Nat.mul_zero,
    Nat.ofDigitChars_ten_toDigits]

theorem padded_separates (width : Nat) :
    Separates (fun n : Nat => (padded width n).toList) (StopsAt Char.isDigit) :=
  .of_kind (isDigit_of_mem_padded width) (padded_injective width)

theorem toList_signed (n : Int) :
    (signed n).toList = (if n < 0 then '-' else '+') :: (toString n.natAbs).toList := by
  rw [signed, String.toList_append]
  split <;> rfl

theorem signed_ne_bracket (n : Int) (r s : List Char) : (signed n).toList ++ r ≠ '<' :: s := by
  rw [toList_signed]
  split <;> simp

theorem signed_separates :
    Separates (fun n : Int => (signed n).toList) (StopsAt Char.isDigit) := by
  intro m n r s hr hs h
  simp only [toList_signed, List.cons_append, List.cons.injEq] at h
  obtain ⟨hsign, hdigits⟩ := h
  obtain ⟨habs, hrest⟩ := toString_separates hr hs hdigits
  refine ⟨?_, hrest⟩
  split_ifs at hsign <;> first | omega | exact absurd hsign (by decide)

def hexValue (c : Char) : Nat := if c.toNat < 58 then c.toNat - 48 else c.toNat - 87

theorem hexValue_hexDigit : ∀ n < 16, hexValue (hexDigit n) = n := by decide

theorem toList_hexByte (b : UInt8) :
    (hexByte b).toList = [hexDigit (b.toNat / 16), hexDigit (b.toNat % 16)] :=
  String.toList_ofList

theorem hexValue_hexByte (b : UInt8) : UInt8.ofNat
    (16 * hexValue (hexDigit (b.toNat / 16)) + hexValue (hexDigit (b.toNat % 16))) = b := by
  have hlt := b.toNat_lt
  rw [hexValue_hexDigit _ (by omega), hexValue_hexDigit _ (by omega), Nat.div_add_mod,
    UInt8.ofNat_toNat]

/-- Reads the two digits of a byte. -/
def readHex : List Char → Option (UInt8 × List Char)
  | c :: d :: r => some (UInt8.ofNat (16 * hexValue c + hexValue d), r)
  | _ => none

theorem readHex_hexByte (b : UInt8) (r : List Char) :
    readHex ((hexByte b).toList ++ r) = some (b, r) := by
  simp only [toList_hexByte, List.cons_append, List.nil_append, readHex, hexValue_hexByte]

theorem hexByte_separates : Separates (fun b => (hexByte b).toList) fun _ => True :=
  .of_read readHex fun b r _ => readHex_hexByte b r

end Numeral

/-! ### Quoted bytes -/

/-- Reads what stands behind a backslash. -/
def readEscape : List Char → Option (UInt8 × List Char)
  | 't' :: r => some (9, r)
  | 'n' :: r => some (10, r)
  | 'r' :: r => some (13, r)
  | '"' :: r => some (34, r)
  | '\'' :: r => some (39, r)
  | '\\' :: r => some (92, r)
  | 'x' :: r => Numeral.readHex r
  | _ => none

/-- Reads the characters that stand for one byte. -/
def readByte : List Char → Option (UInt8 × List Char)
  | [] => none
  | '\\' :: r => readEscape r
  | c :: r => some (c.toUInt8, r)

theorem readByte_of_ne {c : Char} (h : c ≠ '\\') (r : List Char) :
    readByte (c :: r) = some (c.toUInt8, r) := by
  unfold readByte
  split
  · cases ‹_ = []›
  · rename_i heq
    cases heq
    exact absurd rfl h
  · rename_i heq
    cases heq
    rfl

theorem printable : ∀ n < 127, 32 ≤ n → n ≠ 92 →
    (Char.ofNat n).toUInt8 = UInt8.ofNat n ∧ Char.ofNat n ≠ '\\' := by decide

theorem escapeByte_separates : Separates (fun b => (escapeByte b).toList) fun _ => True := by
  refine .of_read readByte fun b r _ => ?_
  simp only [escapeByte]
  split_ifs with ht hn hr hquote hsingle hback hplain
  · exact ht ▸ rfl
  · exact hn ▸ rfl
  · exact hr ▸ rfl
  · exact hquote ▸ rfl
  · exact hsingle ▸ rfl
  · exact hback ▸ rfl
  · have hne : b.toNat ≠ 92 := fun h => hback (UInt8.toNat_inj.mp h)
    obtain ⟨hsame, hslash⟩ := printable b.toNat hplain.2 hplain.1 hne
    rw [String.toList_singleton, List.singleton_append, readByte_of_ne hslash, hsame,
      UInt8.ofNat_toNat]
  · rw [String.toList_append, List.append_assoc]
    exact Numeral.readHex_hexByte b r

theorem quoteByte_separates : Separates (fun b => (quoteByte b).toList) fun _ => True := by
  intro a b r s _ _ h
  have hquote : ∀ b : UInt8,
      (quoteByte b).toList = '\'' :: ((escapeByte b).toList ++ ['\'']) := by
    intro b
    rw [quoteByte, String.toList_append, String.toList_append]
    rfl
  simp only [hquote, List.cons_append, List.append_assoc, List.cons.injEq, true_and] at h
  obtain ⟨rfl, hrest⟩ := escapeByte_separates trivial trivial h
  exact ⟨rfl, (List.cons.inj hrest).2⟩

/-! ### Instructions -/

def isMnemonicChar (c : Char) : Bool := c.isUpper || c == '_'

theorem OpCode.isMnemonicChar_of_mem (op : OpCode) :
    ∀ c ∈ op.mnemonic.toList, isMnemonicChar c = true := by
  rw [← List.all_eq_true]
  cases op <;> rfl

theorem OpCode.mnemonic_injective : Function.Injective mnemonic := by
  intro a b h
  cases a <;> cases b <;> first | rfl | exact absurd h (by decide)

theorem OpCode.mnemonic_separates :
    Separates (fun op : OpCode => op.mnemonic.toList) (StopsAt isMnemonicChar) :=
  .of_kind isMnemonicChar_of_mem fun _ _ h => mnemonic_injective (String.toList_inj.mp h)

theorem JumpTarget.text_separates :
    Separates (fun target : JumpTarget => target.text.toList) (StopsAt Char.isDigit) := by
  intro a b r s hr hs h
  cases a with
  | offset w =>
    cases b with
    | offset v =>
      obtain ⟨hsame, hrest⟩ := Numeral.signed_separates hr hs h
      exact ⟨congrArg JumpTarget.offset (Int32.toInt_inj.mp hsame), hrest⟩
    | unresolved | toFail => exact absurd h (Numeral.signed_ne_bracket _ _ _)
  | unresolved =>
    cases b with
    | unresolved => exact ⟨rfl, List.append_cancel_left h⟩
    | toFail => simp [text] at h
    | offset w => exact absurd h.symm (Numeral.signed_ne_bracket _ _ _)
  | toFail =>
    cases b with
    | toFail => exact ⟨rfl, List.append_cancel_left h⟩
    | unresolved => simp [text] at h
    | offset w => exact absurd h.symm (Numeral.signed_ne_bracket _ _ _)

namespace Instruction

/-- A field of a line ends with a blank or with the line. -/
def EndsField (rest : List Char) : Prop := rest.head? = some ' ' ∨ rest.head? = some '\n'

theorem EndsField.stopsAt {rest : List Char} (h : EndsField rest) {kind : Char → Bool}
    (hblank : kind ' ' = false) (hline : kind '\n' = false) : StopsAt kind rest := by
  intro c hc
  rcases h with h | h <;>
  · rw [h] at hc
    cases hc
    assumption

/-- The operands of an instruction behind a blank, or nothing. -/
def operandField (i : Instruction) : List Char :=
  i.operandText?.elim [] fun operands => ' ' :: operands.toList

theorem toList_text (i : Instruction) :
    i.text.toList = i.opcode.mnemonic.toList ++ i.operandField := by
  unfold text operandField
  split
  · rename_i operands heq
    rw [heq, String.toList_append, String.toList_append, List.append_assoc]
    rfl
  · rename_i heq
    rw [heq, Option.elim_none, List.append_nil]

theorem stopsAt_operandField (i : Instruction) {rest : List Char} (h : EndsField rest) :
    StopsAt isMnemonicChar (i.operandField ++ rest) := by
  unfold operandField
  cases i.operandText? with
  | none => exact h.stopsAt rfl rfl
  | some operands =>
    intro c hc
    cases hc
    rfl

theorem bounds_separate : Separates (fun bounds : UInt8 × UInt8 =>
    (quoteByte bounds.1 ++ "-" ++ quoteByte bounds.2).toList) fun _ => True := by
  rintro ⟨lo, hi⟩ ⟨lo', hi'⟩ r s _ _ h
  simp only [String.toList_append, List.append_assoc] at h
  obtain ⟨rfl, hdash⟩ := quoteByte_separates trivial trivial h
  obtain ⟨rfl, hrest⟩ := quoteByte_separates trivial trivial (List.append_cancel_left hdash)
  exact ⟨rfl, hrest⟩

theorem flag_separates :
    Separates (fun value : Bool => (if value then "1" else "0").toList) fun _ => True := by
  intro a b r s _ _ h
  cases a <;> cases b <;> simp_all

theorem id_separates : Separates (fun id : UInt8 => ("#" ++ toString id.toNat).toList)
    (StopsAt Char.isDigit) := by
  intro a b r s hr hs h
  simp only [String.toList_append, List.append_assoc] at h
  obtain ⟨hsame, hrest⟩ := toString_separates hr hs (List.append_cancel_left h)
  exact ⟨UInt8.toNat_inj.mp hsame, hrest⟩

theorem text_separates : Separates (fun i : Instruction => i.text.toList) EndsField := by
  intro a b r s hr hs h
  simp only [toList_text, List.append_assoc] at h
  have hr' : StopsAt Char.isDigit r := hr.stopsAt rfl rfl
  have hs' : StopsAt Char.isDigit s := hs.stopsAt rfl rfl
  -- equal opcodes leave the operands to be compared
  obtain ⟨hopcode, hfield⟩ :=
    OpCode.mnemonic_separates (stopsAt_operandField a hr) (stopsAt_operandField b hs) h
  cases a <;> cases b <;> cases hopcode <;>
    simp only [operandField, operandText?, Option.elim_some, Option.elim_none, List.cons_append,
      List.nil_append, List.cons.injEq, true_and] at hfield
  case testSingle.testSingle.refl =>
    obtain ⟨rfl, hrest⟩ := quoteByte_separates trivial trivial hfield
    exact ⟨rfl, hrest⟩
  case testRange.testRange.refl lo hi lo' hi' =>
    obtain ⟨hsame, hrest⟩ := @bounds_separate (lo, hi) (lo', hi') _ _ trivial trivial hfield
    cases hsame
    exact ⟨rfl, hrest⟩
  case testNegatedRange.testNegatedRange.refl lo hi lo' hi' =>
    obtain ⟨hsame, hrest⟩ := @bounds_separate (lo, hi) (lo', hi') _ _ trivial trivial hfield
    cases hsame
    exact ⟨rfl, hrest⟩
  case jumpEq.jumpEq.refl | jumpNeq.jumpNeq.refl =>
    obtain ⟨rfl, hrest⟩ := JumpTarget.text_separates hr' hs' hfield
    exact ⟨rfl, hrest⟩
  case jumpPos.jumpPos.refl =>
    obtain ⟨hsame, hrest⟩ := Numeral.signed_separates hr' hs' hfield
    exact ⟨congrArg Instruction.jumpPos (Int32.toInt_inj.mp hsame), hrest⟩
  case setFlag.setFlag.refl =>
    obtain ⟨rfl, hrest⟩ := flag_separates trivial trivial hfield
    exact ⟨rfl, hrest⟩
  case groupStart.groupStart.refl | groupEnd.groupEnd.refl =>
    obtain ⟨rfl, hrest⟩ := id_separates hr' hs' hfield
    exact ⟨rfl, hrest⟩
  all_goals exact ⟨rfl, hfield⟩

end Instruction

end PatternEngine

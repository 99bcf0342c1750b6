import PatternEngine.Proofs.Disassembly
import PatternEngine.Proofs.Separation

/-!
# Listings and their texts

A row of a listing starts with a digit, and the reason why a listing ends does
not, so a text tells where the rows end. Each row tells its offset and its
instruction; the place where a jump lands follows from these and is the same in
equal rows. Main statement: buffers whose listings have one text have one listing.
-/

namespace PatternEngine

namespace DecodeError

theorem message_unknownOpCode (byte : UInt8) (position : Nat) :
    message (.unknownOpCode byte position) = "unknown opcode 0x" ++ Numeral.hexByte byte ++
      (" at bytecode offset " ++ toString position) := rfl

theorem message_truncated (position : Nat) : message (.truncated position) =
    "instruction at bytecode offset " ++ toString position ++ " is truncated" := rfl

theorem message_ne (byte : UInt8) (position position' : Nat) :
    message (.unknownOpCode byte position) ≠ message (.truncated position') := by
  intro h
  -- the first letters differ
  simpa [message_unknownOpCode, message_truncated] using
    congrArg (fun text : String => text.toList.head?) h

theorem message_injective : Function.Injective message := by
  intro a b h
  cases a with
  | unknownOpCode byte position =>
    cases b with
    | truncated position' => exact absurd h (message_ne _ _ _)
    | unknownOpCode byte' position' =>
      replace h := congrArg String.toList h
      simp only [message_unknownOpCode, String.toList_append, List.append_assoc] at h
      obtain ⟨rfl, hplace⟩ := Numeral.hexByte_separates trivial trivial (List.append_cancel_left h)
      have hplace := List.append_cancel_left hplace
      rw [← List.append_nil (toString position).toList,
        ← List.append_nil (toString position').toList] at hplace
      obtain ⟨rfl, -⟩ := toString_separates stopsAt_nil stopsAt_nil hplace
      rfl
  | truncated position =>
    cases b with
    | unknownOpCode byte' position' => exact absurd h.symm (message_ne _ _ _)
    | truncated position' =>
      replace h := congrArg String.toList h
      simp only [message_truncated, String.toList_append, List.append_assoc] at h
      have hstop : StopsAt Char.isDigit " is truncated".toList := stopsAt_cons rfl
      obtain ⟨rfl, -⟩ := toString_separates hstop hstop (List.append_cancel_left h)
      rfl

end DecodeError

namespace Line

/-- The characters of a line that say where a jump lands. -/
def landingField (line : Line) : List Char :=
  line.destination?.elim [] fun landing => " -> ".toList ++ (Numeral.padded 4 landing).toList

def row (line : Line) : List Char := line.text.toList ++ ['\n']

theorem toList_text (line : Line) : line.text.toList =
    (Numeral.padded 4 line.offset).toList ++
      (' ' :: ' ' :: (line.instruction.text.toList ++ line.landingField)) := by
  unfold text landingField
  split
  · rename_i landing heq
    simp only [heq, Option.elim_some, String.toList_append, List.append_assoc]
    rfl
  · rename_i heq
    simp only [heq, Option.elim_none, String.toList_append, List.append_nil, List.append_assoc]
    rfl

theorem endsField_landingField (line : Line) (rest : List Char) :
    Instruction.EndsField (line.landingField ++ '\n' :: rest) := by
  unfold landingField
  cases line.destination? with
  | none => exact .inr rfl
  | some landing => exact .inl rfl

/-- Equal rows are rows of one line, if the lines are as wide as their instructions. -/
theorem row_separates {a b : Line} {r s : List Char} (ha : a.width = a.instruction.width)
    (hb : b.width = b.instruction.width) (h : a.row ++ r = b.row ++ s) : a = b ∧ r = s := by
  obtain ⟨offset, i, width⟩ := a
  obtain ⟨offset', j, width'⟩ := b
  simp only at ha hb
  subst ha hb
  simp only [row, toList_text, List.append_assoc, List.cons_append, List.nil_append] at h
  obtain ⟨rfl, hrest⟩ := Numeral.padded_separates 4 (stopsAt_cons rfl) (stopsAt_cons rfl) h
  simp only [List.cons.injEq, true_and] at hrest
  obtain ⟨rfl, hrest⟩ := Instruction.text_separates (endsField_landingField _ _)
    (endsField_landingField _ _) hrest
  exact ⟨rfl, (List.cons.inj (List.append_cancel_left hrest)).2⟩

theorem not_stopsAt_row (line : Line) (rest : List Char) :
    ¬ StopsAt Char.isDigit (line.row ++ rest) := by
  rw [row, toList_text, List.append_assoc, List.append_assoc]
  exact not_stopsAt_append (Numeral.padded_ne_nil 4 _) (Numeral.isDigit_of_mem_padded 4 _)

end Line

namespace Listing

/-- The characters that say why a listing ends, behind its rows. -/
def ending (listing : Listing) : List Char :=
  listing.stopped.elim [] fun cause => ("!! " ++ cause.message ++ "\n").toList

theorem toList_foldl (lines : List Line) (start : String) :
    (lines.foldl (fun text line => text ++ line.text ++ "\n") start).toList =
      start.toList ++ lines.flatMap Line.row := by
  induction lines generalizing start with
  | nil => simp
  | cons line lines ih =>
    rw [List.foldl_cons, ih, List.flatMap_cons, String.toList_append, String.toList_append,
      List.append_assoc, List.append_assoc, Line.row, List.append_assoc]
    rfl

theorem toList_text (listing : Listing) :
    listing.text.toList = listing.lines.toList.flatMap Line.row ++ listing.ending := by
  have hbody := toList_foldl listing.lines.toList ""
  rw [Array.foldl_toList] at hbody
  unfold text ending
  split
  · rename_i cause heq
    simp only [heq, Option.elim_some, String.toList_append, hbody]
    simp
  · rename_i heq
    simp only [heq, Option.elim_none, hbody]
    simp

theorem stopsAt_ending (listing : Listing) : StopsAt Char.isDigit listing.ending := by
  unfold ending
  cases listing.stopped with
  | none => nofun
  | some cause =>
    intro c hc
    simp at hc
    subst hc
    rfl

theorem ending_injective {a b : Listing} (h : a.ending = b.ending) : a.stopped = b.stopped := by
  unfold ending at h
  cases ha : a.stopped with
  | none =>
    cases hb : b.stopped with
    | none => rfl
    | some cause => simp [ha, hb] at h
  | some cause =>
    cases hb : b.stopped with
    | none => simp [ha, hb] at h
    | some cause' =>
      simp only [ha, hb, Option.elim_some, String.toList_append] at h
      have hmessage := List.append_cancel_left (List.append_cancel_right h)
      rw [DecodeError.message_injective (String.toList_inj.mp hmessage)]

end Listing

/-- Rows followed by a text that no row starts with tell their lines. -/
theorem lines_of_rows {lines more : List Line} {r s : List Char}
    (hlines : ∀ line ∈ lines, line.width = line.instruction.width)
    (hmore : ∀ line ∈ more, line.width = line.instruction.width)
    (hr : StopsAt Char.isDigit r) (hs : StopsAt Char.isDigit s)
    (h : lines.flatMap Line.row ++ r = more.flatMap Line.row ++ s) : lines = more ∧ r = s := by
  induction lines generalizing more with
  | nil =>
    cases more with
    | nil => exact ⟨rfl, h⟩
    | cons line more =>
      rw [List.flatMap_nil, List.nil_append, List.flatMap_cons, List.append_assoc] at h
      exact absurd (h ▸ hr) (line.not_stopsAt_row _)
  | cons line lines ih =>
    cases more with
    | nil =>
      rw [List.flatMap_nil, List.nil_append, List.flatMap_cons, List.append_assoc] at h
      exact absurd (h ▸ hs) (line.not_stopsAt_row _)
    | cons line' more =>
      simp only [List.flatMap_cons, List.append_assoc] at h
      rw [List.forall_mem_cons] at hlines hmore
      obtain ⟨rfl, hrest⟩ := Line.row_separates hlines.1 hmore.1 h
      obtain ⟨rfl, hend⟩ := ih hlines.2 hmore.2 hrest
      exact ⟨rfl, hend⟩

theorem width_of_mem_disassemble {code : Array UInt8} :
    ∀ line ∈ (disassemble code).lines.toList, line.width = line.instruction.width := by
  obtain ⟨lines, stop, hlines, hstuck⟩ := exists_reads code 0
  obtain ⟨stopped, hlisting, -⟩ := exists_endsAt hlines hstuck
  rw [hlisting]
  exact fun line hline => (hlines.decode hline).2

/-- The text of a listing tells all of it: two buffers whose listings read alike
have the same instructions at the same offsets, and end for the same reason. -/
theorem disassemble_eq_of_text_eq {b c : Array UInt8}
    (h : (disassemble b).text = (disassemble c).text) : disassemble b = disassemble c := by
  have hrows := congrArg String.toList h
  rw [Listing.toList_text, Listing.toList_text] at hrows
  obtain ⟨hlines, hending⟩ := lines_of_rows width_of_mem_disassemble width_of_mem_disassemble
    (Listing.stopsAt_ending _) (Listing.stopsAt_ending _) hrows
  exact congrArg₂ Listing.mk (Array.toList_inj.mp hlines) (Listing.ending_injective hending)

/-- A flag set by a seven reads as one set by a one, behind a range that starts
with a quote and ends with a backslash. -/
theorem disassemble_eq_of_text_eq_set_flag :
    (disassemble #[2, 39, 92, 14, 7]).text = (disassemble #[2, 39, 92, 14, 1]).text ∧
      disassemble #[2, 39, 92, 14, 7] = disassemble #[2, 39, 92, 14, 1] := by
  have h : (disassemble #[2, 39, 92, 14, 7]).text = (disassemble #[2, 39, 92, 14, 1]).text := by
    cbv
  exact ⟨h, disassemble_eq_of_text_eq h⟩

end PatternEngine

import TinyAsm.Proofs.Instruction.Printer
import TinyAsm.Proofs.Program.Lines

/-!
# Listings

A listing is the text of a program: one instruction to a line, without labels. Labels have no
instruction to stand for, and what they mark is lost.

`assemble_listing` states that the listing of printable instructions assembles to these
instructions, and `printable_of_assemble` that an assembled program has no others.
-/

namespace TinyAsm.Program

/-- The text of instructions, one to a line. -/
def listing (instructions : List Instruction) : String :=
  "\n".intercalate (instructions.map Instruction.text)

variable {source : String} {p : Program} {instructions : List Instruction} {i : Instruction}

/-- **What was assembled can be written.** -/
theorem printable_of_assemble (h : assemble source = .ok p) (hi : i ∈ p.instructions) :
    i.Printable := by
  have hmem : i ∈ (Line.ofSource source).filterMap Line.instruction? := by
    rw [← (madeOf_of_assemble h).instructions]
    exact Array.mem_toList_iff.2 hi
  -- The instruction was read from a line, and the line from a part of the text.
  obtain ⟨line, hline, hinstruction⟩ := List.mem_filterMap.1 hmem
  obtain ⟨raw, hraw, htext, -⟩ := Line.exists_of_mem_ofSource hline
  have hparse := Line.instruction?_eq_some_iff.1 hinstruction
  rw [htext] at hparse
  refine Instruction.printable_of_parse hparse (Line.bare_content raw) fun hnewline => ?_
  exact Line.not_mem_of_mem_split hraw ((Line.content_isInfix raw).mem hnewline)

/-- The text of a printable instruction is a line that holds the instruction. -/
theorem exists_ofNumbered?_text (h : i.Printable) (number : Nat) :
    ∃ line, Line.ofNumbered? i.text.toList number = some line ∧
      Statement.ofLine line = .ok (.instruction i) := by
  have hcontent : Line.content i.text.toList ≠ [] := by
    -- At least the mnemonic is left of the line.
    obtain ⟨rest, hcontent, -⟩ := h.content_text
    rw [hcontent]
    exact List.append_ne_nil_of_left_ne_nil i.opcode.mnemonic_ne_nil rest
  refine ⟨_, Line.ofNumbered?_eq_some_iff.2 ⟨hcontent, rfl⟩, Except.mapError_eq_ok_iff.2 ?_⟩
  rw [String.toList_ofList]
  exact h.parse_content_text

/-- **Lines with the texts of instructions** put these instructions at the end of a program. -/
theorem extend_texts (h : ∀ i ∈ instructions, i.Printable) (p : Program) (number : Nat) :
    p.extend (((instructions.map fun i => i.text.toList).zipIdx number).filterMap
        fun (cs, number) => Line.ofNumbered? cs number) =
      ({ p with instructions := p.instructions ++ instructions.toArray }, none) := by
  induction instructions generalizing p number with
  | nil => rw [Array.append_empty]; rfl
  | cons i instructions ih =>
    obtain ⟨hi, hinstructions⟩ := List.forall_mem_cons.1 h
    obtain ⟨line, hline, hstatement⟩ := exists_ofNumbered?_text hi number
    -- The first line holds the first instruction, and the others come after it.
    simp only [List.map_cons, List.zipIdx_cons, List.filterMap_cons, hline]
    rw [extend_cons_of_ok hstatement, ih hinstructions]
    simp [add]

/-- **A listing assembles to the instructions that it lists**, and declares no label. -/
theorem assemble_listing (h : ∀ i ∈ instructions, i.Printable) :
    assemble (listing instructions) = .ok { instructions := instructions.toArray } := by
  have hlines : extend {} (Line.ofSource (listing instructions)) =
      ({ instructions := instructions.toArray }, none) := by
    by_cases hne : instructions = []
    · -- The listing of nothing is the empty text, whose only line holds nothing.
      rw [hne]
      rfl
    · have htexts : instructions.map (fun i => i.text.toList) ≠ [] := mt List.map_eq_nil_iff.1 hne
      have hnewline : ∀ cs ∈ instructions.map (fun i => i.text.toList), '\n' ∉ cs :=
        List.forall_mem_map.2 fun i hi => (h i hi).newline_notMem_text
      -- No text has a line end in it, and so the lines are the texts.
      have hsplit : Line.split (listing instructions).toList =
          instructions.map fun i => i.text.toList := by
        rw [listing, String.toList_intercalate, List.map_map]
        exact Line.split_intercalate htexts hnewline
      rw [Line.ofSource, hsplit, extend_texts h, Array.empty_append]
  rw [assemble, hlines]

/-- **Writing an assembled program and assembling it again gives the same instructions**, one
by one and all together. No labels are left. -/
theorem assemble_text_of_assemble (h : assemble source = .ok p) :
    (∀ i ∈ p.instructions, assemble i.text = .ok { instructions := #[i], labels := ∅ }) ∧
      assemble ("\n".intercalate (p.instructions.toList.map Instruction.text)) =
        .ok { instructions := p.instructions, labels := ∅ } := by
  have hprintable : ∀ i ∈ p.instructions, i.Printable := fun i hi => printable_of_assemble h hi
  constructor
  · -- The text of one instruction is a listing of one line.
    intro i hi
    have hone : ∀ j ∈ [i], j.Printable := by
      rintro j hj
      rw [List.mem_singleton.1 hj]
      exact hprintable i hi
    have hlisting : listing [i] = i.text := String.intercalate_singleton
    rw [← hlisting]
    exact assemble_listing hone
  · have hall : ∀ i ∈ p.instructions.toList, i.Printable := fun i hi =>
      hprintable i (Array.mem_toList_iff.1 hi)
    exact assemble_listing hall

/-- A text in which nothing is written the way a listing writes it: literals with a sign and
zeros before them, a register whose numeral is too large to be a literal, one with a blank
that is not a gap in it, a label that is a numeral, a text that holds what ends texts, items
and lines elsewhere, and a message without items. -/
def unusualText : String :=
  "007: ; top\n mov 99999999999999999999 ,+007\r\nadd a\u00a0b,-0;x\n\ncmp 08, \u3000z\njmp 007\n" ++
    "msg 'it;s,\r', 1 ,'' \u00a0\nmsg\n\tret"

/-- All seven instructions of this text are written and read back. -/
theorem assemble_text_of_assemble_unusualText :
    ∃ p, assemble unusualText = .ok p ∧
      (∀ i ∈ p.instructions, assemble i.text = .ok { instructions := #[i], labels := ∅ }) ∧
      assemble ("\n".intercalate (p.instructions.toList.map Instruction.text)) =
        .ok { instructions := p.instructions, labels := ∅ } := by
  -- That the text assembles, and to how many instructions, is all that is evaluated.
  have h : (assemble unusualText).toOption.map size = some 7 := by decide +kernel
  cases hp : assemble unusualText with
  | error e =>
    rw [hp] at h
    contradiction
  | ok p => exact ⟨p, rfl, assemble_text_of_assemble hp⟩

example : (assemble unusualText).toOption.map (fun p => listing p.instructions.toList) =
    some ("mov 99999999999999999999, 7\nadd a\u00a0b, 0\ncmp 8, \u3000z\njmp 007\n" ++
      "msg 'it;s,\r', 1, ''\nmsg \nret") := by
  decide +kernel

end TinyAsm.Program

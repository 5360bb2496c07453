import Mathlib.Data.List.Perm.Subperm
import TinyAsm.Proofs.Image.Layout
import TinyAsm.Proofs.Program.Lines
import TinyAsm.Proofs.Source.Item
import TinyAsm.Proofs.Source.Line
import TinyAsm.Proofs.Source.Statement

/-!
# A program is no larger than its text

Every name and every fixed text of an assembled program is a part of the text that it was
assembled from. There are no more instructions and labels than lines, and no more parts of a
message than characters. So a program fits an image if its text fits in memory
(`Program.fits_of_assemble`).
-/

namespace TinyAsm

open Image (TextFits ListFits EntryFits lengthCount length_encode_toList)

/-! ### Parts of a text -/

namespace Utf8

theorem length_encode_le_of_isInfix {a b : List Char} (h : a <:+: b) :
    (encode a).length ≤ (encode b).length := by
  obtain ⟨before, after, rfl⟩ := h
  rw [encode_append, encode_append, List.length_append, List.length_append]
  omega

/-- A character takes at least a byte. -/
theorem length_le_length_encode (cs : List Char) : cs.length ≤ (encode cs).length := by
  induction cs with
  | nil => exact Nat.le_refl _
  | cons c cs ih =>
    have hc : 0 < (String.utf8EncodeChar c).length := by
      rw [String.length_utf8EncodeChar]
      exact c.utf8Size_pos
    rw [encode_cons, List.length_append, List.length_cons]
    omega

end Utf8

variable {source s : String} {x : Item} {items : List Item} {opcode : Opcode} {i : Instruction}

theorem length_toList_le (source : String) : source.toList.length ≤ source.utf8ByteSize := by
  rw [← length_encode_toList]
  exact Utf8.length_le_length_encode source.toList

/-- A part of a text that fits fits. -/
theorem Image.textFits_of_isInfix (hsource : TextFits source)
    (h : s.toList <:+: source.toList) : TextFits s := by
  have hle : s.utf8ByteSize ≤ source.utf8ByteSize := by
    rw [← length_encode_toList, ← length_encode_toList]
    exact Utf8.length_encode_le_of_isInfix h
  exact Nat.lt_of_le_of_lt hle hsource

/-! ### Items -/

/-- The text of an item can be counted. -/
def Item.Fits : Item → Prop
  | .text content => TextFits content
  | .word spelling => TextFits spelling

theorem Item.fits_of_isInfix (hsource : TextFits source) (h : x.chars <:+: source.toList) :
    x.Fits := by
  cases x with
  | word spelling => exact Image.textFits_of_isInfix hsource h
  | text content =>
    -- The quotes around the text do not count.
    have hcontent : content.toList <:+: (Item.text content).chars := by
      rw [chars_text]
      exact ⟨['\''], ['\''], rfl⟩
    exact Image.textFits_of_isInfix hsource (hcontent.trans h)

theorem Operand.fits_ofSpelling (h : TextFits s) : (ofSpelling s).Fits := by
  cases hs : ofSpelling s with
  | literal value => exact trivial
  | register name =>
    obtain rfl := eq_of_ofSpelling_eq_register hs
    exact h

theorem Item.fits_part (h : x.Fits) : x.part.Fits := by
  cases x with
  | text content => exact h
  | word spelling => exact Operand.fits_ofSpelling h

/-- **What is built of items that fit fits.** -/
theorem Instruction.BuiltOf.fits (h : BuiltOf opcode items i) (hitems : ListFits Item.Fits items) :
    i.Fits := by
  obtain ⟨hlength, hfits⟩ := hitems
  have hword {spelling : String} (hmem : Item.word spelling ∈ items) : TextFits spelling :=
    hfits _ hmem
  -- A label keeps its spelling, and an operand keeps it if it is a register.
  cases h with
  | mov y hx => exact ⟨hword (by simp), Operand.fits_ofSpelling (hword (by simp))⟩
  | inc hx => exact hword List.mem_cons_self
  | dec hx => exact hword List.mem_cons_self
  | arith op y hx => exact ⟨hword (by simp), Operand.fits_ofSpelling (hword (by simp))⟩
  | cmp x y =>
    exact ⟨Operand.fits_ofSpelling (hword (by simp)), Operand.fits_ofSpelling (hword (by simp))⟩
  | jmp label => exact hword List.mem_cons_self
  | jumpIf condition label => exact hword List.mem_cons_self
  | call label => exact hword List.mem_cons_self
  | ret => exact trivial
  | halt => exact trivial
  | msg items =>
    -- A message has as many parts as there are items.
    refine ⟨?_, List.forall_mem_map.2 fun x hx => Item.fits_part (hfits x hx)⟩
    rw [List.length_map]
    exact hlength

/-! ### Lines -/

namespace Line

variable {line : Line} {name : String} {cs : List Char}

/-- There is at most one line more than there are characters. -/
theorem length_split_le (cs : List Char) : (split cs).length ≤ cs.length + 1 := by
  rw [length_split]
  exact Nat.succ_le_succ List.count_le_length

/-- A text has at most one line more than it has bytes. -/
theorem length_ofSource_le (source : String) :
    (ofSource source).length ≤ source.utf8ByteSize + 1 := by
  have hlines : (ofSource source).length ≤ ((split source.toList).zipIdx 1).length :=
    List.length_filterMap_le _ _
  calc
    (ofSource source).length ≤ ((split source.toList).zipIdx 1).length := hlines
    _ = (split source.toList).length := List.length_zipIdx
    _ ≤ source.toList.length + 1 := length_split_le source.toList
    _ ≤ source.utf8ByteSize + 1 := Nat.succ_le_succ (length_toList_le source)

/-- A line is a part of its text. -/
theorem text_isInfix (h : line ∈ ofSource source) : line.text.toList <:+: source.toList := by
  obtain ⟨raw, hraw, htext, -⟩ := exists_of_mem_ofSource h
  rw [htext]
  exact (content_isInfix raw).trans (isInfix_of_mem_split hraw)

/-- **The instruction of a line fits**, since all of its texts are parts of the line. -/
theorem fits_of_instruction? (hsource : TextFits source) (h : line ∈ ofSource source)
    (hi : line.instruction? = some i) : i.Fits := by
  obtain ⟨op, items, -, hlist, hbuilt⟩ :=
    Statement.parse_eq_instruction_iff.1 (instruction?_eq_some_iff.1 hi)
  -- The operands are a part of the line, and the line is one of the text.
  obtain ⟨gap, hline, -⟩ := Blank.exists_eq_splitHead_append line.text.toList
  generalize (Blank.splitHead line.text.toList).2 = rest at hline hlist
  have hrest : rest <:+: line.text.toList := by
    rw [hline]
    exact ((List.suffix_append gap rest).trans (List.suffix_append _ _)).isInfix
  have hoperands : Blank.trim rest <:+: source.toList :=
    (Blank.trim_isInfix rest).trans (hrest.trans (text_isInfix h))
  refine hbuilt.fits ⟨?_, fun x hx => ?_⟩
  · -- Every item takes a character at least, and every character a byte.
    have hlength := Utf8.length_encode_le_of_isInfix hoperands
    rw [length_encode_toList] at hlength
    calc
      items.length ≤ (Blank.trim rest).length := Item.length_le_of_list hlist
      _ ≤ (Utf8.encode (Blank.trim rest)).length := Utf8.length_le_length_encode _
      _ ≤ source.utf8ByteSize := hlength
      _ < lengthCount := hsource
  · exact Item.fits_of_isInfix hsource ((Item.chars_isInfix_of_list hlist hx).trans hoperands)

/-- **The label of a line fits**, since it is a part of the text. -/
theorem fits_of_label? (hsource : TextFits source) (h : line ∈ ofSource source)
    (hl : line.label? = some name) : TextFits name := by
  obtain ⟨hhead, -, -⟩ := Statement.parse_eq_label_iff.1 (label?_eq_some_iff.1 hl)
  -- The name stands at the start of its line, before the colon.
  obtain ⟨gap, hline, -⟩ := Blank.exists_eq_splitHead_append line.text.toList
  rw [hhead, List.append_assoc] at hline
  have hname : name.toList <:+: line.text.toList := by
    rw [hline]
    exact (List.prefix_append name.toList _).isInfix
  exact Image.textFits_of_isInfix hsource (hname.trans (text_isInfix h))

end Line

/-! ### Programs -/

namespace Program

variable {p : Program} {lines : List Line}

/-- There are no more instructions than lines. -/
theorem size_le_of_assemble (h : assemble source = .ok p) : p.size ≤ source.utf8ByteSize + 1 := by
  have hp := madeOf_of_assemble h
  calc
    p.size = ((Line.ofSource source).filterMap Line.instruction?).length := by
      rw [← hp.instructions, Array.length_toList, size]
    _ ≤ (Line.ofSource source).length := List.length_filterMap_le _ _
    _ ≤ source.utf8ByteSize + 1 := Line.length_ofSource_le source

/-- There are no more labels than lines, since no name has two. -/
theorem MadeOf.length_labels_le (h : MadeOf lines p) : p.labels.toList.length ≤ lines.length := by
  have hnodup : (p.labels.toList.map Prod.fst).Nodup := by
    rw [Std.ExtTreeMap.map_fst_toList_eq_keys]
    exact Std.ExtTreeMap.nodup_keys
  -- The names are distinct, and each of them is declared on a line.
  have hsubset : p.labels.toList.map Prod.fst ⊆ lines.filterMap Line.label? := by
    refine List.forall_mem_map.2 fun e he => ?_
    obtain ⟨line, hline, hlabel⟩ := h.exists_label? he
    exact List.mem_filterMap.2 ⟨line, hline, hlabel⟩
  calc
    p.labels.toList.length = (p.labels.toList.map Prod.fst).length :=
        (List.length_map Prod.fst).symm
    _ ≤ (lines.filterMap Line.label?).length := (hnodup.subperm hsubset).length_le
    _ ≤ lines.length := List.length_filterMap_le _ _

/-- **An assembled program fits an image**, as its text was held in memory. -/
theorem fits_of_assemble (h : assemble source = .ok p)
    (hsource : source.utf8ByteSize < Word.indexCount) : p.Fits := by
  have hp := madeOf_of_assemble h
  have hcount : source.utf8ByteSize + 1 < lengthCount :=
    Nat.lt_of_le_of_lt (Nat.succ_le_of_lt hsource) (by decide)
  have htext : TextFits source := Nat.lt_of_succ_lt hcount
  -- How many instructions there are, each of them, how many labels there are, and each of those.
  refine ⟨⟨?_, fun i hi => ?_⟩, ⟨?_, fun e he => ?_⟩⟩
  · rw [Array.length_toList]
    exact Nat.lt_of_le_of_lt (size_le_of_assemble h) hcount
  · rw [hp.instructions] at hi
    obtain ⟨line, hline, hi⟩ := List.mem_filterMap.1 hi
    exact Line.fits_of_instruction? htext hline hi
  · calc
      p.labels.toList.length ≤ (Line.ofSource source).length := hp.length_labels_le
      _ ≤ source.utf8ByteSize + 1 := Line.length_ofSource_le source
      _ < lengthCount := hcount
  · obtain ⟨line, hline, hlabel⟩ := hp.exists_label? he
    exact Line.fits_of_label? htext hline hlabel

end Program

end TinyAsm

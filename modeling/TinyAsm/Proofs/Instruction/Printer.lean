import Mathlib.Data.List.Basic
import TinyAsm.Instruction.Printer
import TinyAsm.Proofs.Source.Item
import TinyAsm.Proofs.Source.Line
import TinyAsm.Proofs.Source.Statement

/-!
# Instructions, written and read back

An instruction is written with its items (`Instruction.items`), which are those it was built
of, save that a literal may have been spelled in another way (`BuiltOf.items_eq`). What is
written is read back if the items stand on a line of their own:

* `Item.Legible items` — the lexer, the search for comments, the division into lines and the
  trimming of blanks all leave the text of the items alone;
* `Instruction.Printable i` — the items of `i` are legible, and `i` is built of them.

Every instruction that was read from a line is printable (`printable_of_parse`), and a
printable instruction is read from the line with its text (`Printable.parse_content_text`).
-/

namespace TinyAsm

/-! ### Numerals as words -/

namespace Decimal

theorem ofWord_ne_nil (w : Word) : (ofWord w).toList ≠ [] := by
  intro hnil
  have hword := word?_ofWord w
  rw [hnil] at hword
  contradiction

/-- A numeral consists of digits, with at most a sign before them. -/
theorem isDigit_of_mem_ofWord {w : Word} {c : Char} (h : c ∈ (ofWord w).toList) :
    c.isDigit = true ∨ c = '-' := by
  have hrepr (n : Nat) (hc : c ∈ n.repr.toList) : c.isDigit = true := by
    rw [Nat.repr_eq_ofList_toDigits, String.toList_ofList] at hc
    exact Nat.isDigit_of_mem_toDigits (by decide) (by decide) hc
  unfold ofWord ofInt at h
  split at h
  · next n _ => exact .inl (hrepr n h)
  · next n _ =>
    rw [String.toList_append, List.mem_append] at h
    rcases h with hsign | hdigit
    · exact .inr (List.mem_singleton.1 hsign)
    · exact .inl (hrepr (n + 1) hdigit)

/-- No character of a printed number ends a word, a line or the part before a comment. -/
theorem ne_of_mem_ofWord {w : Word} {c : Char} (h : c ∈ (ofWord w).toList) :
    isBlank c = false ∧ Token.isWordChar c = true ∧ c ≠ ';' ∧ c ≠ '\n' := by
  rcases isDigit_of_mem_ofWord h with hdigit | rfl
  · -- There are only ten digits, and each of them can be tried.
    have hmem : c ∈ (List.range 10).map fun n => Char.ofNat (48 + n) := by
      obtain ⟨hlow, hhigh⟩ : 48 ≤ c.toNat ∧ c.toNat ≤ 57 := by
        simpa [Char.isDigit, UInt32.le_iff_toNat_le] using hdigit
      refine List.mem_map.2 ⟨c.toNat - 48, List.mem_range.2 (by omega), ?_⟩
      rw [Nat.add_sub_cancel' hlow, Char.ofNat_toNat]
    have key : ((List.range 10).map fun n => Char.ofNat (48 + n)).all (fun c =>
        isBlank c = false ∧ Token.isWordChar c = true ∧ c ≠ ';' ∧ c ≠ '\n') = true := by decide
    exact of_decide_eq_true (List.all_eq_true.1 key c hmem)
  · decide

end Decimal

/-! ### The items of an instruction -/

/-- A part of a message as an item. -/
def MessagePart.item : MessagePart → Item
  | text content => .text content
  | value operand => .word operand.spelling

/-- The items that an instruction is written with. -/
def Instruction.items : Instruction → List Item
  | mov target source | arith _ target source => [.word target, .word source.spelling]
  | inc target | dec target => [.word target]
  | cmp left right => [.word left.spelling, .word right.spelling]
  | jmp label | jumpIf _ label | call label => [.word label]
  | msg parts => parts.map MessagePart.item
  | ret | halt => []

namespace Item

/-- An item that was read and written again is itself, or a numeral in its normal form. -/
theorem item_part (x : Item) :
    x.part.item = x ∨ ∃ w, x.part.item = .word (Decimal.ofWord w) := by
  cases x with
  | text content => exact .inl rfl
  | word s =>
    show Item.word (Operand.ofSpelling s).spelling = .word s ∨
      ∃ w, Item.word (Operand.ofSpelling s).spelling = .word (Decimal.ofWord w)
    cases hs : Operand.ofSpelling s with
    | literal w => exact .inr ⟨w, rfl⟩
    | register name =>
      obtain rfl := Operand.eq_of_ofSpelling_eq_register hs
      exact .inl rfl

/-- Reading what was read and written again changes nothing. -/
theorem part_item_part (x : Item) : x.part.item.part = x.part := by
  cases x with
  | text content => rfl
  | word s => exact congrArg MessagePart.value (Operand.ofSpelling_spelling_ofSpelling s)

end Item

namespace Instruction

variable {opcode : Opcode} {items : List Item} {i : Instruction}

/-- **What an instruction is written with** is what it was built of, with the literals
written anew. Only labels keep the spelling of a numeral. -/
theorem BuiltOf.items_eq (h : BuiltOf opcode items i) :
    i.items = items ∨ i.items = items.map fun x => x.part.item := by
  -- A register to store into has the same spelling before and after.
  have hregister {x : String} (hx : Operand.ofSpelling x = .register x) :
      (Item.word x).part.item = .word x := by
    show Item.word (Operand.ofSpelling x).spelling = .word x
    rw [hx]
    rfl
  -- A label has not been read as an operand, and comes back as it was spelled.
  cases h with
  | mov y hx => right; rw [List.map_cons, hregister hx]; rfl
  | inc hx => right; rw [List.map_cons, hregister hx]; rfl
  | dec hx => right; rw [List.map_cons, hregister hx]; rfl
  | arith op y hx => right; rw [List.map_cons, hregister hx]; rfl
  | cmp x y => right; rfl
  | jmp label => left; rfl
  | jumpIf condition label => left; rfl
  | call label => left; rfl
  | ret => left; rfl
  | msg items => right; exact List.map_map
  | halt => left; rfl

/-- **The items of an instruction build it again.** -/
theorem BuiltOf.rebuild (h : BuiltOf opcode items i) : BuiltOf opcode i.items i := by
  have hagain (y : String) := Operand.ofSpelling_spelling_ofSpelling y
  -- Where an operand was read, it is read again from its own spelling.
  cases h with
  | @mov x y hx =>
    have hbuilt := BuiltOf.mov (Operand.ofSpelling y).spelling hx
    rwa [hagain] at hbuilt
  | inc hx => exact .inc hx
  | dec hx => exact .dec hx
  | @arith op x y hx =>
    have hbuilt := BuiltOf.arith op (Operand.ofSpelling y).spelling hx
    rwa [hagain] at hbuilt
  | cmp x y =>
    have hbuilt := BuiltOf.cmp (Operand.ofSpelling x).spelling (Operand.ofSpelling y).spelling
    rwa [hagain, hagain] at hbuilt
  | jmp label => exact .jmp label
  | jumpIf condition label => exact .jumpIf condition label
  | call label => exact .call label
  | ret => exact .ret
  | msg =>
    have hparts : ((items.map Item.part).map MessagePart.item).map Item.part =
        items.map Item.part := by
      rw [List.map_map, List.map_map]
      exact List.map_congr_left fun x _ => x.part_item_part
    have hbuilt := BuiltOf.msg ((items.map Item.part).map MessagePart.item)
    rwa [hparts] at hbuilt
  | halt => exact .halt

/-- **The text of an instruction** is its mnemonic and its items. The blank between the two
is missing only if no items can come. -/
theorem exists_toList_text (i : Instruction) :
    ∃ gap, i.text.toList = i.opcode.mnemonic.toList ++ (gap ++ Item.written i.items) ∧
      (gap = [] ∧ i.items = [] ∨ gap = [' ']) := by
  -- An operand is written as its item is; the parts of a message differ in their quotes.
  have hitems : i.operandTexts.map String.toList = i.items.map Item.chars := by
    cases i with
    | msg parts =>
      show (parts.map MessagePart.spelling).map String.toList =
        (parts.map MessagePart.item).map Item.chars
      rw [List.map_map, List.map_map]
      refine List.map_congr_left fun part _ => ?_
      cases part <;> rfl
    | _ => rfl
  have hwritten : (i.opcode.mnemonic ++ " " ++ ", ".intercalate i.operandTexts).toList =
      i.opcode.mnemonic.toList ++ ([' '] ++ Item.written i.items) := by
    rw [String.toList_append, String.toList_append, String.toList_intercalate, hitems,
      List.append_assoc]
    rfl
  -- The opcodes that take no operands leave the blank out.
  cases i with
  | ret => exact ⟨[], rfl, .inl ⟨rfl, rfl⟩⟩
  | halt => exact ⟨[], rfl, .inl ⟨rfl, rfl⟩⟩
  | _ => exact ⟨[' '], hwritten, .inr rfl⟩

end Instruction

/-! ### Items on a line of their own -/

namespace Item

/-- **Items whose text stands for them**, also as the end of a line. -/
structure Legible (items : List Item) : Prop where
  /-- Every item is one token. -/
  lexical : ∀ x ∈ items, x.Lexical
  /-- No word starts a comment. -/
  no_comment : ∀ s, .word s ∈ items → ';' ∉ s.toList
  /-- No line ends in an item. -/
  no_newline : ∀ x ∈ items, '\n' ∉ x.chars
  /-- No blank space comes first. -/
  head : ∀ x ∈ items.head?, ∀ c ∈ x.chars.head?, isBlank c = false
  /-- No blank space comes last. -/
  last : ∀ x ∈ items.getLast?, ∀ c ∈ x.chars.getLast?, isBlank c = false

variable {cs : List Char} {items : List Item} {x : Item}

theorem not_invalid_mem_tokens (items : List Item) (slice : String) :
    Token.invalid slice ∉ tokens items := by
  intro hmem
  rcases eq_comma_or_exists_of_mem_tokens hmem with h | ⟨x, -, h⟩
  · contradiction
  · cases x <;> contradiction

theorem word_mem_tokens_iff {s : String} : Token.word s ∈ tokens items ↔ .word s ∈ items := by
  refine ⟨fun hmem => ?_, fun hmem => token_mem_tokens hmem⟩
  rcases eq_comma_or_exists_of_mem_tokens hmem with h | ⟨x, hx, h⟩
  · contradiction
  · cases x <;> cases h
    exact hx

/-- **The items of a line are legible**, as blanks around them do not belong to the line, and
neither do comments. -/
theorem legible_of_list (h : list cs = .ok items) (hbare : Line.Bare false cs)
    (hnewline : '\n' ∉ cs) (hhead : ∀ c ∈ cs.head?, isBlank c = false)
    (hlast : ∀ c ∈ cs.getLast?, isBlank c = false) : Legible items where
  lexical := lexical_of_list h
  no_comment := by
    intro s hs
    -- A semicolon outside of quotes would have ended the line.
    have hwords := (Line.bare_iff_of_tiles (list_eq_ok_iff.1 h) (not_invalid_mem_tokens _)).1 hbare
    exact hwords s (word_mem_tokens_iff.2 hs)
  no_newline := fun x hx hmem => hnewline ((chars_isInfix_of_list h hx).mem hmem)
  head := by
    intro x hx
    rw [head?_of_list h hx fun c hc => Blank.isGap_eq_false (hhead c hc)]
    exact hhead
  last := by
    intro x hx
    rw [getLast?_of_list h hx fun c hc => Blank.isGap_eq_false (hlast c hc)]
    exact hlast

/-- **Writing the literals anew keeps items legible.** -/
theorem Legible.map_part_item (h : Legible items) :
    Legible (items.map fun x => x.part.item) where
  -- An item is either the one that was there, or a numeral. None of the characters of a
  -- numeral could do harm.
  lexical := by
    refine List.forall_mem_map.2 fun x hx => ?_
    rcases x.item_part with hx' | ⟨w, hx'⟩ <;> rw [hx']
    · exact h.lexical x hx
    · exact ⟨Decimal.ofWord_ne_nil w, fun c hc => (Decimal.ne_of_mem_ofWord hc).2.1⟩
  no_comment := by
    intro s hs
    obtain ⟨x, hx, hxs⟩ := List.mem_map.1 hs
    rcases x.item_part with hx' | ⟨w, hx'⟩
    · rw [hx'] at hxs
      exact h.no_comment s (hxs ▸ hx)
    · rw [hx'] at hxs
      cases hxs
      exact fun hc => (Decimal.ne_of_mem_ofWord hc).2.2.1 rfl
  no_newline := by
    refine List.forall_mem_map.2 fun x hx => ?_
    rcases x.item_part with hx' | ⟨w, hx'⟩ <;> rw [hx']
    · exact h.no_newline x hx
    · exact fun hc => (Decimal.ne_of_mem_ofWord hc).2.2.2 rfl
  head := by
    intro x' hx'
    rw [List.head?_map] at hx'
    obtain ⟨x, hx, rfl⟩ := Option.map_eq_some_iff.1 hx'
    intro c hc
    rcases x.item_part with heq | ⟨w, heq⟩ <;> rw [heq] at hc
    · exact h.head x hx c hc
    · exact (Decimal.ne_of_mem_ofWord (List.mem_of_mem_head? hc)).1
  last := by
    intro x' hx'
    rw [List.getLast?_map] at hx'
    obtain ⟨x, hx, rfl⟩ := Option.map_eq_some_iff.1 hx'
    intro c hc
    rcases x.item_part with heq | ⟨w, heq⟩ <;> rw [heq] at hc
    · exact h.last x hx c hc
    · exact (Decimal.ne_of_mem_ofWord (List.mem_of_mem_getLast? hc)).1

/-- No comment starts in the text of legible items. -/
theorem Legible.bare (h : Legible items) : Line.Bare false (written items) :=
  (Line.bare_iff_of_tiles (tiles_written h.lexical) (not_invalid_mem_tokens items)).2
    fun s hs => h.no_comment s (word_mem_tokens_iff.1 hs)

theorem Legible.written_ne_nil (h : Legible items) (hne : items ≠ []) : written items ≠ [] := by
  obtain ⟨x, items, rfl⟩ := List.exists_cons_of_ne_nil hne
  obtain ⟨rest, hrest⟩ := exists_written_cons x items
  rw [hrest]
  exact List.append_ne_nil_of_left_ne_nil (chars_ne_nil (h.lexical x List.mem_cons_self)) rest

theorem Legible.newline_notMem (h : Legible items) : '\n' ∉ written items := by
  intro hmem
  rcases mem_written hmem with hc | hc | ⟨x, hx, hc⟩
  · contradiction
  · contradiction
  · exact h.no_newline x hx hc

/-- No blank space is at either end. -/
theorem Legible.head_written (h : Legible items) :
    ∀ c ∈ (written items).head?, isBlank c = false := by
  cases items with
  | nil => nofun
  | cons x items =>
    obtain ⟨rest, hrest⟩ := exists_written_cons x items
    have hne := chars_ne_nil (h.lexical x List.mem_cons_self)
    rw [hrest, List.head?_append_of_ne_nil x.chars hne]
    exact h.head x rfl

theorem Legible.last_written (h : Legible items) :
    ∀ c ∈ (written items).getLast?, isBlank c = false := by
  rcases List.eq_nil_or_concat items with rfl | ⟨items, x, rfl⟩
  · nofun
  · rw [List.concat_eq_append] at h ⊢
    obtain ⟨front, hfront⟩ := exists_written_append items x
    have hne := chars_ne_nil (h.lexical x List.mem_concat_self)
    rw [hfront, List.getLast?_append_of_ne_nil front hne]
    exact h.last x List.getLast?_concat

end Item

/-! ### Mnemonics in a line -/

namespace Opcode

variable {rest : List Char}

/-- A mnemonic opens no quote and starts no comment. -/
theorem bare_mnemonic_append_iff {op : Opcode} :
    Line.Bare false (op.mnemonic.toList ++ rest) ↔ Line.Bare false rest := by
  have hquote : '\'' ∉ op.mnemonic.toList := fun hmem => (ne_of_mem_mnemonic hmem).2.1 rfl
  have hsemi : ';' ∉ op.mnemonic.toList := fun hmem => (ne_of_mem_mnemonic hmem).2.2.1 rfl
  rw [Line.bare_append_iff hquote]
  exact and_iff_right fun _ => hsemi

/-- Trimming leaves a line alone that starts with a mnemonic, unless there is blank space at
its end. -/
theorem trim_mnemonic_append (op : Opcode) (hrest : ∀ c ∈ rest.getLast?, isBlank c = false) :
    Blank.trim (op.mnemonic.toList ++ rest) = op.mnemonic.toList ++ rest := by
  have hblank : ∀ c ∈ op.mnemonic.toList, isBlank c = false := fun c hc =>
    (ne_of_mem_mnemonic hc).1
  refine Blank.trim_of_ends (fun c hc => ?_) fun c hc => ?_
  · rw [List.head?_append_of_ne_nil _ op.mnemonic_ne_nil] at hc
    exact hblank c (List.mem_of_mem_head? hc)
  · rw [List.getLast?_append] at hc
    -- Behind an empty rest the last character is one of the mnemonic.
    cases hlast : rest.getLast? with
    | some c' =>
      rw [hlast] at hc
      cases hc
      exact hrest c hlast
    | none =>
      rw [hlast] at hc
      exact hblank c (List.mem_of_mem_getLast? hc)

end Opcode

/-! ### Instructions on a line of their own -/

namespace Instruction

/-- **An instruction that its text stands for.** -/
structure Printable (i : Instruction) : Prop where
  built : BuiltOf i.opcode i.items i
  legible : Item.Legible i.items

variable {cs : List Char} {i : Instruction}

/-- **What was read can be written**: an instruction that was read from a line without a
comment is printable. -/
theorem printable_of_parse (h : Statement.parse cs = .ok (.instruction i))
    (hbare : Line.Bare false cs) (hnewline : '\n' ∉ cs) : Printable i := by
  obtain ⟨op, items, hhead, hlist, hbuilt⟩ := Statement.parse_eq_instruction_iff.1 h
  obtain ⟨gap, hcs, hgap⟩ := Blank.exists_eq_splitHead_append cs
  generalize (Blank.splitHead cs).2 = rest at hcs hlist
  rw [hhead] at hcs
  -- There is no quote before the operands, and so no comment starts in them either.
  rw [hcs, Opcode.bare_mnemonic_append_iff, Line.bare_blank_append_iff hgap] at hbare
  have hrest : Line.Bare false (Blank.trim rest) := hbare.trim
  have hnewline' : '\n' ∉ Blank.trim rest := by
    intro hmem
    have hmem' : '\n' ∈ rest := (Blank.trim_isInfix rest).mem hmem
    rw [hcs] at hnewline
    exact hnewline (List.mem_append_right _ (List.mem_append_right _ hmem'))
  have hlegible : Item.Legible items :=
    Item.legible_of_list hlist hrest hnewline' (Blank.head_trim rest) (Blank.last_trim rest)
  refine ⟨hbuilt.opcode_eq.symm ▸ hbuilt.rebuild, ?_⟩
  -- The items of the instruction are those of the line, or those with the literals written anew.
  rcases hbuilt.items_eq with heq | heq
  · rw [heq]
    exact hlegible
  · rw [heq]
    exact hlegible.map_part_item

/-- The text of a printable instruction is one line. -/
theorem Printable.newline_notMem_text (h : i.Printable) : '\n' ∉ i.text.toList := by
  obtain ⟨gap, htext, hgap⟩ := i.exists_toList_text
  rw [htext, List.mem_append, List.mem_append]
  -- A line end would be in the mnemonic, in the gap or in an item.
  rintro (hmem | hmem | hmem)
  · exact (Opcode.ne_of_mem_mnemonic hmem).2.2.2.2 rfl
  · rcases hgap with ⟨rfl, -⟩ | rfl
    · contradiction
    · contradiction
  · exact h.legible.newline_notMem hmem

/-- There is nothing in it that a line would drop, save the blank of an empty message. -/
theorem Printable.content_text (h : i.Printable) :
    ∃ rest, Line.content i.text.toList = i.opcode.mnemonic.toList ++ rest ∧
      (∀ c ∈ rest.head?, isBlank c = true) ∧
      Blank.trim (rest.drop 1) = Item.written i.items := by
  obtain ⟨gap, htext, hgap⟩ := i.exists_toList_text
  have hblank : gap.all isBlank := by
    rcases hgap with ⟨rfl, -⟩ | rfl
    · rfl
    · rfl
  have hbare : Line.Bare false i.text.toList := by
    rw [htext, Opcode.bare_mnemonic_append_iff, Line.bare_blank_append_iff hblank]
    exact h.legible.bare
  rw [Line.content_of_bare hbare, htext]
  by_cases hitems : i.items = []
  · -- Nothing comes after the mnemonic but the gap.
    refine ⟨[], ?_, nofun, by rw [hitems]; rfl⟩
    have hnone : ∀ c ∈ ([] : List Char).getLast?, isBlank c = false := nofun
    have hwritten : Item.written i.items = [] := by rw [hitems]; rfl
    rw [hwritten, List.append_nil, Blank.trim_append hblank]
    have htrim := i.opcode.trim_mnemonic_append hnone
    rwa [List.append_nil] at htrim ⊢
  · -- There are items, and so the gap is one blank, which ends the mnemonic.
    obtain rfl : gap = [' '] := hgap.resolve_left fun hnil => hitems hnil.2
    have hwritten := h.legible.written_ne_nil hitems
    refine ⟨' ' :: Item.written i.items, ?_, ?_, ?_⟩
    · refine i.opcode.trim_mnemonic_append ?_
      rw [List.singleton_append, List.getLast?_cons_of_ne_nil hwritten]
      exact h.legible.last_written
    · rintro c ⟨⟩
      rfl
    · exact Blank.trim_of_ends h.legible.head_written h.legible.last_written

/-- **What was written is read back.** -/
theorem Printable.parse_content_text (h : i.Printable) :
    Statement.parse (Line.content i.text.toList) = .ok (.instruction i) := by
  obtain ⟨rest, hcontent, hblank, htrim⟩ := h.content_text
  have hsplit : Blank.splitHead (Line.content i.text.toList) =
      (i.opcode.mnemonic.toList, rest.drop 1) := by
    -- There is no blank in the mnemonic, and one right behind it.
    rw [hcontent]
    exact Blank.splitHead_append (fun c hc => (Opcode.ne_of_mem_mnemonic hc).1) hblank
  refine Statement.parse_eq_instruction_iff.2 ⟨i.opcode, i.items, ?_, ?_, h.built⟩
  · rw [hsplit]
  · rw [hsplit, htrim]
    exact Item.list_eq_ok_iff.2 (Item.tiles_written h.legible.lexical)

end Instruction

end TinyAsm

import TinyAsm.Proofs.Machine.Cause
import TinyAsm.Proofs.Operand
import TinyAsm.Proofs.Program.Listing

/-!
# Assembled programs are lexically clean

Every name in an assembled program could stand in a line as it is, and no name of a register could
be taken for a literal.

* `Instruction.registers` — the registers that an instruction names, be it to read or to store;
* `CleanName` — a name without anything that ends words, lines or what comes before comments;
* `Program.LexicallyClean` — all that is said of the names and texts of a program.

The lexer lets a `;` into a word. That none gets into a program is a matter of comments: the quotes
that hide them are the quotes around texts, and so a `;` outside texts is cut off with its comment
(`Item.Legible.no_comment`, which every assembled instruction has by `printable_of_assemble`).
-/

namespace TinyAsm

/-- **A name that stands in a line as one word**, and does not start a comment. -/
structure CleanName (name : String) : Prop where
  nonempty : name ≠ ""
  chars : ∀ c ∈ name.toList, c ∉ [' ', '\t', '\x0c', '\r', '\n', ',', '\'', ';']

/-- The registers that an instruction names: the one it stores into, and those it reads. -/
def Instruction.registers (i : Instruction) : List String :=
  i.target?.toList ++ i.reads

variable {items : List Item} {i : Instruction} {op : Opcode} {o : Operand} {name label : String}

/-! ### Words -/

/-- **A word of a legible line is a clean name.** -/
theorem Item.Legible.cleanName {s : String} (h : Legible items) (hs : .word s ∈ items) :
    CleanName s := by
  obtain ⟨hne, hchars⟩ : s.toList ≠ [] ∧ ∀ c ∈ s.toList, Token.isWordChar c = true :=
    h.lexical (.word s) hs
  refine ⟨fun hempty => hne ?_, fun c hc hmem => ?_⟩
  · rw [hempty]
    rfl
  · have hword : Token.isWordChar c = true := hchars c hc
    have hcomment : c ≠ ';' := fun hsemi => h.no_comment s hs (hsemi ▸ hc)
    simp only [List.mem_cons, List.not_mem_nil, or_false] at hmem
    -- None of the characters can stand in a word, save the last.
    rcases hmem with rfl | rfl | rfl | rfl | rfl | rfl | rfl | rfl
    case inr.inr.inr.inr.inr.inr.inr => exact hcomment rfl
    all_goals contradiction

/-! ### What an instruction names -/

/-- A register that was read from a spelling has it as its name. -/
theorem Operand.ofSpelling_of_register? {s : String} (h : (ofSpelling s).register? = some name) :
    name = s ∧ ofSpelling s = .register s := by
  cases hs : ofSpelling s with
  | literal value =>
    rw [hs] at h
    contradiction
  | register name' =>
    rw [hs] at h
    obtain rfl : name' = name := Option.some.inj h
    obtain rfl := eq_of_ofSpelling_eq_register hs
    exact ⟨rfl, rfl⟩

namespace Instruction

theorem mem_registers_iff : name ∈ i.registers ↔ i.target? = some name ∨ name ∈ i.reads := by
  rw [registers, List.mem_append, Option.mem_toList]

/-- A register to store into was asked for as one. -/
theorem BuiltOf.word_mem_of_target? (h : BuiltOf op items i) (htarget : i.target? = some name) :
    .word name ∈ items ∧ Operand.ofSpelling name = .register name := by
  cases h with
  | mov y hx | inc hx | dec hx | arith op y hx =>
    cases htarget
    exact ⟨List.mem_cons_self, hx⟩
  | _ => contradiction

/-- A register to read is an operand, or the target of an operation in place. -/
theorem BuiltOf.word_mem_of_reads (h : BuiltOf op items i) (hread : name ∈ i.reads) :
    .word name ∈ items ∧ Operand.ofSpelling name = .register name := by
  have hoperand {y : String} (hmem : .word y ∈ items)
      (hread : name ∈ (Operand.ofSpelling y).register?.toList) :
      .word name ∈ items ∧ Operand.ofSpelling name = .register name := by
    obtain ⟨rfl, hy⟩ := Operand.ofSpelling_of_register? (Option.mem_toList.1 hread)
    exact ⟨hmem, hy⟩
  -- The registers of each instruction come from operands, and from its target if it works in
  -- place.
  cases h with
  | mov y hx => exact hoperand (List.mem_cons_of_mem _ List.mem_cons_self) hread
  | inc hx | dec hx =>
    obtain rfl := List.mem_singleton.1 hread
    exact ⟨List.mem_cons_self, hx⟩
  | arith op y hx =>
    rcases List.mem_cons.1 hread with rfl | hread
    · exact ⟨List.mem_cons_self, hx⟩
    · exact hoperand (List.mem_cons_of_mem _ List.mem_cons_self) hread
  | cmp x y =>
    rcases List.mem_append.1 hread with hread | hread
    · exact hoperand List.mem_cons_self hread
    · exact hoperand (List.mem_cons_of_mem _ List.mem_cons_self) hread
  | msg items =>
    obtain ⟨part, hpart, hread⟩ := List.mem_filterMap.1 hread
    obtain ⟨x, hx, rfl⟩ := List.mem_map.1 hpart
    cases x with
    | text content => contradiction
    | word s => exact hoperand hx (Option.mem_toList.2 hread)
  | jmp | jumpIf | call | ret | halt => contradiction

/-- **A register is one of the words** of which its instruction was built, and no literal. -/
theorem BuiltOf.word_mem_of_registers (h : BuiltOf op items i) (hname : name ∈ i.registers) :
    .word name ∈ items ∧ Operand.ofSpelling name = .register name := by
  rcases mem_registers_iff.1 hname with htarget | hread
  · exact h.word_mem_of_target? htarget
  · exact h.word_mem_of_reads hread

/-- A label is one of the words, too. -/
theorem BuiltOf.word_mem_of_label? (h : BuiltOf op items i) (hlabel : i.label? = some label) :
    .word label ∈ items := by
  cases h with
  | jmp | jumpIf | call =>
    cases hlabel
    exact List.mem_cons_self
  | _ => contradiction

/-- A text of a message is one of the texts. -/
theorem BuiltOf.text_mem {parts : List MessagePart} {content : String}
    (h : BuiltOf op items (.msg parts)) (hcontent : .text content ∈ parts) :
    .text content ∈ items := by
  cases h with
  | msg items =>
    obtain ⟨x, hx, hpart⟩ := List.mem_map.1 hcontent
    cases x with
    | text content' =>
      cases hpart
      exact hx
    | word s => contradiction

end Instruction

/-! ### Whole programs -/

/-- **The names and texts of a program are ones that a line could hold.** -/
structure Program.LexicallyClean (p : Program) : Prop where
  /-- A register has a clean name, which is no numeral that fits a word. -/
  registers : ∀ i ∈ p.instructions, ∀ name ∈ i.registers,
    CleanName name ∧ ¬∃ n, Decimal.Numeral name.toList n ∧ Word.Holds n
  /-- Where an instruction goes, there is a clean name. -/
  targets : ∀ i ∈ p.instructions, ∀ label ∈ i.label?, CleanName label
  /-- A text has neither a quote nor a line end in it. -/
  texts : ∀ parts, .msg parts ∈ p.instructions → ∀ content, .text content ∈ parts →
    '\'' ∉ content.toList ∧ '\n' ∉ content.toList
  /-- A label that is declared has a name without blanks. -/
  labels : ∀ name ∈ p.labels, name ≠ "" ∧ ∀ c ∈ name.toList, isBlank c = false

namespace Program

variable {source : String} {p : Program}

/-- A label is declared by the head of its line, which ends before the first blank. -/
theorem nonblank_of_label? {line : Line} (h : line.label? = some name) :
    name ≠ "" ∧ ∀ c ∈ name.toList, isBlank c = false := by
  obtain ⟨hhead, hne, -⟩ := Statement.parse_eq_label_iff.1 (Line.label?_eq_some_iff.1 h)
  refine ⟨fun hempty => hne ?_, fun c hc => ?_⟩
  · rw [hempty]
    rfl
  · -- The name stands in the head of the line, and the colon behind it.
    have hmem : c ∈ (Blank.splitHead line.text.toList).1 := by
      rw [hhead]
      exact List.mem_append_left _ hc
    simpa using List.mem_takeWhile_imp hmem

/-- **Assembled programs are lexically clean.** -/
theorem lexicallyClean_of_assemble (h : assemble source = .ok p) : p.LexicallyClean where
  registers := by
    intro i hi name hname
    have hprintable := printable_of_assemble h hi
    obtain ⟨hword, hregister⟩ := hprintable.built.word_mem_of_registers hname
    exact ⟨hprintable.legible.cleanName hword, (Operand.ofSpelling_eq_register_iff.1 hregister).2⟩
  targets := by
    intro i hi label hlabel
    have hprintable := printable_of_assemble h hi
    exact hprintable.legible.cleanName (hprintable.built.word_mem_of_label? hlabel)
  texts := by
    intro parts hi content hcontent
    have hprintable := printable_of_assemble h hi
    have htext := hprintable.built.text_mem hcontent
    refine ⟨hprintable.legible.lexical _ htext, fun hnewline => ?_⟩
    -- A line end in the text would be one in the item, between its quotes.
    refine hprintable.legible.no_newline _ htext ?_
    rw [Item.chars_text]
    exact List.mem_cons_of_mem _ (List.mem_append_left _ hnewline)
  labels := by
    intro name hname
    obtain ⟨position, hposition⟩ := Option.isSome_iff_exists.1
      (Std.ExtTreeMap.mem_iff_isSome_getElem?.1 hname)
    have hentry : (name, position) ∈ p.labels.toList :=
      Std.ExtTreeMap.mem_toList_iff_getElem?_eq_some.2 hposition
    -- A label of the table is declared on one of the lines.
    obtain ⟨line, -, hline⟩ := (madeOf_of_assemble h).exists_label? hentry
    exact nonblank_of_label? hline

/-- A text in which comments, quotes and numerals come close to the names: a `;` in a text, after
a word and after another comment, a quote in a comment, a register whose numeral is too large to be
a literal, and a label that ends in a second colon. -/
def commentedText : String :=
  "a:: ;'\n msg 'x;y,',b;'c\nmov 9223372036854775808 , -1;;\nje a:"

/-- All three instructions of this text, and its label, are clean. -/
theorem lexicallyClean_of_commentedText :
    ∃ p, assemble commentedText = .ok p ∧ p.size = 3 ∧ p.LexicallyClean := by
  have h : (assemble commentedText).toOption.map size = some 3 := by decide +kernel
  cases hp : assemble commentedText with
  | error e =>
    rw [hp] at h
    contradiction
  | ok p =>
    rw [hp] at h
    exact ⟨p, rfl, Option.some.inj h, lexicallyClean_of_assemble hp⟩

end Program

end TinyAsm

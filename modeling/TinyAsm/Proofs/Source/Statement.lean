import TinyAsm.Proofs.Except
import TinyAsm.Proofs.Source.Token
import TinyAsm.Source.Statement

/-!
# What a line says

* `Instruction.BuiltOf opcode items i` is the table of the opcodes: how many items each one
  takes, and in which role. It says what `Instruction.ofItems` makes of them
  (`ofItems_eq_ok_iff`).
* `Statement.parse_eq_instruction_iff` — a line is an instruction exactly if its head is a
  mnemonic and the items of the rest are ones of which the instruction is built;
* `Statement.parse_eq_label_iff` — it is a label exactly if it is a name with a colon.
-/

namespace TinyAsm

/-! ### Operands and items -/

/-- A register is named as it is spelled. -/
theorem Operand.eq_of_ofSpelling_eq_register {s name : String}
    (h : Operand.ofSpelling s = .register name) : name = s := by
  unfold Operand.ofSpelling at h
  split at h
  · contradiction
  · cases h; rfl

namespace Item

variable {x : Item} {s : String} {o : Operand}

theorem name_eq_ok_iff : x.name = .ok s ↔ x = .word s := by
  cases x <;> simp [name]

/-- An operand can only be a word, and it is read from its spelling. -/
theorem operand_eq_ok_iff :
    x.operand = .ok o ↔ ∃ s, x = .word s ∧ Operand.ofSpelling s = o := by
  simp only [operand, Except.map_eq_ok_iff, name_eq_ok_iff]

/-- A register to store into is spelled as one, and keeps its spelling as its name. -/
theorem target_eq_ok_iff :
    x.target = .ok s ↔ x = .word s ∧ Operand.ofSpelling s = .register s := by
  unfold target
  constructor
  · intro h
    split at h
    · -- The operand was a register, and it is named as it was spelled.
      next name hname =>
      cases h
      obtain ⟨s', rfl, hs'⟩ := operand_eq_ok_iff.1 hname
      obtain rfl := Operand.eq_of_ofSpelling_eq_register hs'
      exact ⟨rfl, hs'⟩
    · contradiction
    · contradiction
  · rintro ⟨rfl, hs⟩
    have hoperand : (word s).operand = .ok (.register s) := operand_eq_ok_iff.2 ⟨s, rfl, hs⟩
    rw [hoperand]

end Item

/-! ### Instructions and their items -/

namespace Instruction

open Operand in
/-- **The instruction that is built of an opcode and items.** A register to store into must
not read as a literal. A label is taken as it is spelled, even if that is a numeral. -/
inductive BuiltOf : Opcode → List Item → Instruction → Prop where
  | mov {x : String} (y : String) (hx : ofSpelling x = .register x) :
      BuiltOf .mov [.word x, .word y] (.mov x (ofSpelling y))
  | inc {x : String} (hx : ofSpelling x = .register x) : BuiltOf .inc [.word x] (.inc x)
  | dec {x : String} (hx : ofSpelling x = .register x) : BuiltOf .dec [.word x] (.dec x)
  | arith (op : ArithOp) {x : String} (y : String) (hx : ofSpelling x = .register x) :
      BuiltOf (.arith op) [.word x, .word y] (.arith op x (ofSpelling y))
  | cmp (x y : String) : BuiltOf .cmp [.word x, .word y] (.cmp (ofSpelling x) (ofSpelling y))
  | jmp (label : String) : BuiltOf .jmp [.word label] (.jmp label)
  | jumpIf (condition : Condition) (label : String) :
      BuiltOf (.jumpIf condition) [.word label] (.jumpIf condition label)
  | call (label : String) : BuiltOf .call [.word label] (.call label)
  | ret : BuiltOf .ret [] .ret
  | msg (items : List Item) : BuiltOf .msg items (.msg (items.map Item.part))
  | halt : BuiltOf .halt [] .halt

variable {opcode : Opcode} {items : List Item} {i : Instruction}

theorem BuiltOf.opcode_eq (h : BuiltOf opcode items i) : i.opcode = opcode := by
  cases h <;> rfl

/-- **The table is what the assembler goes by.** -/
theorem ofItems_eq_ok_iff : ofItems opcode items = .ok i ↔ BuiltOf opcode items i := by
  constructor
  · intro h
    -- There is one case for each opcode with as many items as it takes; in the last one the
    -- number of items is wrong.
    unfold ofItems at h
    split at h
    case h_12 => contradiction
    all_goals
      simp only [Except.bind_eq_ok_iff, Except.pure_eq_ok_iff, Item.target_eq_ok_iff,
        Item.operand_eq_ok_iff, Item.name_eq_ok_iff] at h
    case h_1 => obtain ⟨x, ⟨rfl, hx⟩, -, ⟨y, rfl, rfl⟩, rfl⟩ := h; exact .mov y hx
    case h_2 => obtain ⟨x, ⟨rfl, hx⟩, rfl⟩ := h; exact .inc hx
    case h_3 => obtain ⟨x, ⟨rfl, hx⟩, rfl⟩ := h; exact .dec hx
    case h_4 op _ _ => obtain ⟨x, ⟨rfl, hx⟩, -, ⟨y, rfl, rfl⟩, rfl⟩ := h; exact .arith op y hx
    case h_5 => obtain ⟨-, ⟨x, rfl, rfl⟩, -, ⟨y, rfl, rfl⟩, rfl⟩ := h; exact .cmp x y
    case h_6 => obtain ⟨label, rfl, rfl⟩ := h; exact .jmp label
    case h_7 condition _ => obtain ⟨label, rfl, rfl⟩ := h; exact .jumpIf condition label
    case h_8 => obtain ⟨label, rfl, rfl⟩ := h; exact .call label
    case h_9 => subst h; exact .ret
    case h_10 => subst h; exact .msg items
    case h_11 => subst h; exact .halt
  · intro h
    -- Each row of the table takes one branch, and the number of its items is right.
    cases h
    all_goals
      simp only [ofItems, Except.bind_eq_ok_iff, Except.pure_eq_ok_iff, Item.target_eq_ok_iff,
        Item.operand_eq_ok_iff, Item.name_eq_ok_iff]
    case mov y hx => exact ⟨_, ⟨rfl, hx⟩, _, ⟨y, rfl, rfl⟩, rfl⟩
    case inc hx => exact ⟨_, ⟨rfl, hx⟩, rfl⟩
    case dec hx => exact ⟨_, ⟨rfl, hx⟩, rfl⟩
    case arith y hx => exact ⟨_, ⟨rfl, hx⟩, _, ⟨y, rfl, rfl⟩, rfl⟩
    case cmp x y => exact ⟨_, ⟨x, rfl, rfl⟩, _, ⟨y, rfl, rfl⟩, rfl⟩
    case jmp label => exact ⟨label, rfl, rfl⟩
    case jumpIf label => exact ⟨label, rfl, rfl⟩
    case call label => exact ⟨label, rfl, rfl⟩

end Instruction

/-! ### The head of a line -/

namespace Blank

variable {cs head rest : List Char}

/-- A line consists of its head, the blank after it, and the rest. -/
theorem exists_eq_splitHead_append (cs : List Char) :
    ∃ gap, cs = (splitHead cs).1 ++ (gap ++ (splitHead cs).2) ∧ gap.all isBlank := by
  refine ⟨(cs.dropWhile (!isBlank ·)).take 1, ?_, ?_⟩
  · rw [splitHead, List.take_append_drop, List.takeWhile_append_dropWhile]
  · have hhead := Token.head_of_dropWhile (p := (!isBlank ·)) cs
    cases hdrop : cs.dropWhile (!isBlank ·) with
    | nil => rfl
    | cons c rest =>
      rw [hdrop] at hhead
      simpa using hhead c rfl

/-- A head without blanks is found again, and one blank is taken off behind it. -/
theorem splitHead_append (hhead : ∀ c ∈ head, isBlank c = false)
    (hrest : ∀ c ∈ rest.head?, isBlank c = true) :
    splitHead (head ++ rest) = (head, rest.drop 1) := by
  have htake : ∀ c ∈ head, (!isBlank c) = true := fun c hc => by rw [hhead c hc]; rfl
  have hstop : ∀ c ∈ rest.head?, (!isBlank c) = false := fun c hc => by rw [hrest c hc]; rfl
  rw [splitHead, (Token.takeWhile_of_forall htake hstop).1,
    (Token.takeWhile_of_forall htake hstop).2]

end Blank

namespace Opcode

/-- **A mnemonic is plain text**: none of its characters means something else in a line. -/
theorem ne_of_mem_mnemonic {op : Opcode} {c : Char} (h : c ∈ op.mnemonic.toList) :
    isBlank c = false ∧ c ≠ '\'' ∧ c ≠ ';' ∧ c ≠ ':' ∧ c ≠ '\n' := by
  have key : ∀ op ∈ all, op.mnemonic.toList.all (fun c =>
      isBlank c = false ∧ c ≠ '\'' ∧ c ≠ ';' ∧ c ≠ ':' ∧ c ≠ '\n') = true := by decide
  exact of_decide_eq_true (List.all_eq_true.1 (key op (mem_all op)) c h)

theorem mnemonic_ne_nil (op : Opcode) : op.mnemonic.toList ≠ [] := by
  -- There are finitely many mnemonics.
  have key : ∀ op ∈ all, op.mnemonic.toList ≠ [] := by decide
  exact key op (mem_all op)

end Opcode

namespace Statement

variable {cs : List Char} {i : Instruction}

/-- A mnemonic is not the head of a label. -/
theorem getLast?_mnemonic_ne (op : Opcode) : op.mnemonic.toList.getLast? ≠ some ':' := by
  intro hlast
  obtain ⟨front, hfront⟩ := List.getLast?_eq_some_iff.1 hlast
  have hmem : ':' ∈ op.mnemonic.toList := hfront ▸ List.mem_append_right _ List.mem_cons_self
  exact (Opcode.ne_of_mem_mnemonic hmem).2.2.2.1 rfl

/-- **A line is an instruction** exactly if its head is a mnemonic and the instruction is
built of the items of the rest. -/
theorem parse_eq_instruction_iff :
    parse cs = .ok (.instruction i) ↔
      ∃ op items, (Blank.splitHead cs).1 = op.mnemonic.toList ∧
        Item.list (Blank.trim (Blank.splitHead cs).2) = .ok items ∧
        Instruction.BuiltOf op items i := by
  unfold parse
  constructor
  · intro h
    simp only at h
    split at h
    · -- A label is no instruction.
      unfold declare at h
      split at h
      · contradiction
      · exact absurd (Except.pure_eq_ok_iff.1 h) nofun
    · -- The opcode is the one that the head names, and the rest is read as its operands.
      obtain ⟨i', hparse, hi⟩ := Except.map_eq_ok_iff.1 h
      cases hi
      unfold Instruction.parse at hparse
      split at hparse
      · contradiction
      · next op hop =>
        obtain ⟨items, hlist, hbuilt⟩ := Except.bind_eq_ok_iff.1 hparse
        have hhead := congrArg String.toList (Opcode.ofMnemonic?_eq_some_iff.1 hop)
        rw [String.toList_ofList] at hhead
        exact ⟨op, items, hhead.symm, hlist, Instruction.ofItems_eq_ok_iff.1 hbuilt⟩
  · rintro ⟨op, items, hhead, hlist, hbuilt⟩
    have hparse : Instruction.parse op.mnemonic.toList (Blank.trim (Blank.splitHead cs).2) =
        .ok i := by
      rw [Instruction.parse, String.ofList_toList, Opcode.ofMnemonic?_mnemonic]
      exact Except.bind_eq_ok_iff.2 ⟨items, hlist, Instruction.ofItems_eq_ok_iff.2 hbuilt⟩
    simp only [hhead, if_neg (getLast?_mnemonic_ne op)]
    exact Except.map_eq_ok_iff.2 ⟨i, hparse, rfl⟩

/-- **A line is a label** exactly if its head is the name with a colon and there is no rest. -/
theorem parse_eq_label_iff {name : String} :
    parse cs = .ok (.label name) ↔
      (Blank.splitHead cs).1 = name.toList ++ [':'] ∧ name.toList ≠ [] ∧
        Blank.trim (Blank.splitHead cs).2 = [] := by
  unfold parse
  constructor
  · intro h
    simp only at h
    split at h
    · next hcolon =>
      -- The colon is taken off the head, and what is left is the name.
      obtain ⟨front, hfront⟩ := List.getLast?_eq_some_iff.1 hcolon
      rw [hfront, List.dropLast_concat] at h
      unfold declare at h
      split at h
      · contradiction
      · next hname =>
        obtain ⟨hne, hrest⟩ := not_or.1 hname
        cases Except.pure_eq_ok_iff.1 h
        rw [String.toList_ofList]
        exact ⟨hfront, hne, not_not.1 hrest⟩
    · -- An instruction is no label.
      obtain ⟨i, -, hi⟩ := Except.map_eq_ok_iff.1 h
      contradiction
  · rintro ⟨hhead, hne, hrest⟩
    have hnot : ¬(name.toList = [] ∨ ([] : List Char) ≠ []) := by
      rintro (h | h)
      · exact hne h
      · exact h rfl
    simp only [hhead, hrest, List.getLast?_concat, List.dropLast_concat, if_true, declare]
    rw [if_neg hnot, String.ofList_toList]
    rfl

end Statement

end TinyAsm

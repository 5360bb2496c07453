import TinyAsm.Source.Item
import TinyAsm.Source.Line

/-!
# Statements

A line is a statement: a label, or an instruction. What comes before the first blank is
its head. A head that ends in a colon declares a label; any other head is the mnemonic of
an instruction, and the rest of the line is its operand list.

`Statement.parse` reads one line. It depends on nothing but the line's text. Where several
things are wrong with an instruction, the mnemonic is reported before the operand list,
the list before the number of its items, and that before the items themselves, which are
taken from left to right.
-/

namespace TinyAsm

/-- What a line of a program says. -/
inductive Statement where
  | label (name : String)
  | instruction (i : Instruction)
deriving DecidableEq, Repr

/-- The instruction with the given opcode and operand items. -/
def Instruction.ofItems (opcode : Opcode) (items : List Item) :
    Except LineError Instruction :=
  match opcode, items with
  | .mov, [x, y] => return .mov (← x.target) (← y.operand)
  | .inc, [x] => return .inc (← x.target)
  | .dec, [x] => return .dec (← x.target)
  | .arith op, [x, y] => return .arith op (← x.target) (← y.operand)
  | .cmp, [x, y] => return .cmp (← x.operand) (← y.operand)
  | .jmp, [x] => return .jmp (← x.name)
  | .jumpIf condition, [x] => return .jumpIf condition (← x.name)
  | .call, [x] => return .call (← x.name)
  | .ret, [] => return .ret
  | .msg, items => return .msg (items.map Item.part)
  | .halt, [] => return .halt
  | opcode, items =>
    -- The number of items is wrong.
    throw (.operandCount opcode (opcode.arity?.getD 0) items.length)

/-- The instruction with the given mnemonic and operand list. -/
def Instruction.parse (mnemonic operands : List Char) : Except LineError Instruction :=
  match Opcode.ofMnemonic? (String.ofList mnemonic) with
  | none => throw (.unknownOpcode (String.ofList mnemonic))
  | some opcode => do Instruction.ofItems opcode (← Item.list operands)

namespace Statement

/-- The label with the given name, which nothing may follow. -/
def declare (name rest : List Char) : Except LineError Statement :=
  if name = [] ∨ rest ≠ [] then throw .malformedLabel
  else return label (String.ofList name)

/-- The statement on a line. -/
def parse (line : List Char) : Except LineError Statement :=
  let (head, rest) := Blank.splitHead line
  let rest := Blank.trim rest
  if head.getLast? = some ':' then declare head.dropLast rest
  else instruction <$> Instruction.parse head rest

/-- The statement on a line of a program text. -/
def ofLine (line : Line) : Except AssemblyError Statement :=
  (parse line.text.toList).mapError fun cause => ⟨line.number, cause⟩

end Statement

end TinyAsm

import TinyAsm.Operand

/-!
# Instructions

The instructions of the machine, with their operands in place. What each one does to the
machine is `Machine.execute`; how it is spelled is `Instruction.text`.

Conditions and arithmetic operations are types of their own. `Condition.holds` says
when a compared pair meets a condition.
-/

namespace TinyAsm

/-- A relation that a conditional jump asks of the last compared pair. -/
inductive Condition where
  | eq
  | ne
  | gt
  | ge
  | lt
  | le
deriving DecidableEq, Repr, Inhabited

namespace Condition

/-- Every condition, in the order of their tags. -/
def all : List Condition := [eq, ne, gt, ge, lt, le]

@[simp] theorem mem_all (c : Condition) : c ∈ all := by
  cases c <;> decide

/-- Whether the pair `(x, y)` meets the condition. -/
def holds (c : Condition) (x y : Word) : Bool :=
  match c with
  | eq => x = y
  | ne => x ≠ y
  | gt => y < x
  | ge => y ≤ x
  | lt => x < y
  | le => x ≤ y

end Condition

/-- An arithmetic operation on a register. -/
inductive ArithOp where
  | add
  | sub
  | mul
  | div
deriving DecidableEq, Repr, Inhabited

namespace ArithOp

/-- Every operation, in the order of their tags. -/
def all : List ArithOp := [add, sub, mul, div]

@[simp] theorem mem_all (op : ArithOp) : op ∈ all := by
  cases op <;> decide

end ArithOp

/-- A part of a message: fixed text, or the value of an operand in decimal. -/
inductive MessagePart where
  | text (content : String)
  | value (operand : Operand)
deriving DecidableEq, Repr, Inhabited

/-- An instruction of the machine. -/
inductive Instruction where
  /-- Sets a register. -/
  | mov (target : String) (source : Operand)
  /-- Adds one to a register. -/
  | inc (target : String)
  /-- Takes one from a register. -/
  | dec (target : String)
  /-- Combines a register with an operand, in place. -/
  | arith (op : ArithOp) (target : String) (source : Operand)
  /-- Keeps a pair of values for later conditional jumps. -/
  | cmp (left right : Operand)
  /-- Goes on after a label. -/
  | jmp (label : String)
  /-- Goes on after a label if the compared pair meets a condition. -/
  | jumpIf (condition : Condition) (label : String)
  /-- Goes on after a label and keeps the place to come back to. -/
  | call (label : String)
  /-- Goes back to the place kept last. -/
  | ret
  /-- Sets the output. -/
  | msg (parts : List MessagePart)
  /-- Halts the machine. -/
  | halt
deriving DecidableEq, Repr, Inhabited

end TinyAsm

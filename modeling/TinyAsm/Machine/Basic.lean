import TinyAsm.Program.Basic

/-!
# The machine

The machine has a register file, the last compared pair, a stack of places to come back
to, an instruction pointer, a halt flag, an output text and a count of the instructions
executed so far. A machine that was just switched on has nothing in any of them.

This module holds the state, the faults an instruction can meet, and the ways to read and
change the state. What each instruction does with them is in `Machine.Execute`.
-/

namespace TinyAsm

/-- Why an instruction cannot be executed. -/
inductive Fault where
  /-- A register is read that nothing was stored into. -/
  | uninitialized (register : String)
  | unknownLabel (label : String)
  /-- A return without a call to come back from. -/
  | emptyStack
  | divisionByZero
  /-- A conditional jump before any comparison. -/
  | noComparison
deriving DecidableEq, Repr

/-- The text of a fault. -/
def Fault.message : Fault → String
  | uninitialized register => "register '" ++ register ++ "' read before it was set"
  | unknownLabel label => "unknown label '" ++ label ++ "'"
  | emptyStack => "ret with an empty call stack"
  | divisionByZero => "division by zero"
  | noComparison => "conditional jump without a preceding cmp"

/-- The state of a machine. The top of the stack is its first entry. -/
structure Machine where
  registers : Table := ∅
  comparison : Option (Word × Word) := none
  stack : List Word := []
  pointer : Word := 0
  halted : Bool := false
  output : String := ""
  steps : Nat := 0
deriving DecidableEq

namespace Machine

/-! ### Reading -/

/-- The value of a register. -/
def register (m : Machine) (name : String) : Except Fault Word :=
  match m.registers[name]? with
  | some value => .ok value
  | none => .error (.uninitialized name)

/-- The value of an operand. -/
def value (m : Machine) : Operand → Except Fault Word
  | .literal value => .ok value
  | .register name => m.register name

/-- The pair compared last. -/
def compared (m : Machine) : Except Fault (Word × Word) :=
  match m.comparison with
  | some pair => .ok pair
  | none => .error .noComparison

/-- The text of a message part, with the values that registers have now. -/
def render (m : Machine) : MessagePart → Except Fault String
  | .text content => .ok content
  | .value operand => Decimal.ofWord <$> m.value operand

/-! ### Changing -/

/-- Stores a value into a register. -/
def store (m : Machine) (name : String) (value : Word) : Machine :=
  { m with registers := m.registers.insert name value }

/-- Moves the pointer. -/
def goto (m : Machine) (position : Word) : Machine :=
  { m with pointer := position }

/-- Moves the pointer and keeps the place it was at. -/
def enter (m : Machine) (position : Word) : Machine :=
  { m with stack := m.pointer :: m.stack, pointer := position }

end Machine

/-- The position a label stands for. -/
def Program.position (p : Program) (label : String) : Except Fault Word :=
  match p.labels[label]? with
  | some position => .ok position
  | none => .error (.unknownLabel label)

end TinyAsm

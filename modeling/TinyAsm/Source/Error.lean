import TinyAsm.Instruction.Opcode

/-!
# What can be wrong with a line

A line that is no statement is rejected for one of five causes, and the error of a whole
program text adds the number of the line.
-/

namespace TinyAsm

/-- Why a line is no statement. -/
inductive LineError where
  /-- The line starts with neither a mnemonic nor a label. -/
  | unknownOpcode (head : String)
  /-- The opcode takes another number of operands. -/
  | operandCount (opcode : Opcode) (expected got : Nat)
  /-- A literal stands where a value is to be stored. -/
  | expectedRegister (value : Word)
  /-- A part of the operand list does not belong where it stands. -/
  | unexpectedInput (slice : String)
  /-- A label has no name, or something follows it. -/
  | malformedLabel
deriving DecidableEq, Repr

/-- The text of a cause. -/
def LineError.message : LineError → String
  | unknownOpcode head => "unknown opcode '" ++ head ++ "'"
  | operandCount opcode expected got =>
    "'" ++ opcode.mnemonic ++ "' takes " ++ expected.repr ++ " operand(s), got " ++ got.repr
  | expectedRegister value => "expected a register, got '" ++ Decimal.ofWord value ++ "'"
  | unexpectedInput slice => "unexpected input '" ++ slice ++ "'"
  | malformedLabel => "malformed label"

/-- Why a program text is no program: the number of its first bad line, and what is wrong
with it. -/
structure AssemblyError where
  line : Nat
  cause : LineError
deriving DecidableEq, Repr

/-- The text of an assembly error. -/
def AssemblyError.message (e : AssemblyError) : String :=
  "line " ++ e.line.repr ++ ": " ++ e.cause.message

end TinyAsm

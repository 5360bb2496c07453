import TinyAsm.Instruction.Opcode

/-!
# The text of an instruction

An instruction is written as its mnemonic and its operands, with a comma and a space
between operands. Fixed text of a message stands in single quotes.
-/

namespace TinyAsm

/-- A part of a message as it is written. -/
def MessagePart.spelling : MessagePart → String
  | .text content => "'" ++ content ++ "'"
  | .value operand => operand.spelling

namespace Instruction

/-- The operands of an instruction as they are written. -/
def operandTexts : Instruction → List String
  | mov target source | arith _ target source => [target, source.spelling]
  | inc target | dec target => [target]
  | cmp left right => [left.spelling, right.spelling]
  | jmp label | jumpIf _ label | call label => [label]
  | msg parts => parts.map MessagePart.spelling
  | ret | halt => []

/-- The text of an instruction. The blank after the mnemonic is left out only where an
opcode takes no operands, so an empty message keeps it. -/
def text (i : Instruction) : String :=
  match i.opcode.arity? with
  | some 0 => i.opcode.mnemonic
  | _ => i.opcode.mnemonic ++ " " ++ ", ".intercalate i.operandTexts

end Instruction

end TinyAsm

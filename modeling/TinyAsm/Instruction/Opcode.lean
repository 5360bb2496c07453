import TinyAsm.Instruction.Basic

/-!
# Opcodes

An opcode is an instruction without its operands. It has a mnemonic, which is how a
program text names it, and an arity, which only messages lack.

`Opcode.ofMnemonic?_eq_some_iff` states that the mnemonics name the opcodes one to one.
-/

namespace TinyAsm

/-- The kind of an instruction. -/
inductive Opcode where
  | mov
  | inc
  | dec
  | arith (op : ArithOp)
  | cmp
  | jmp
  | jumpIf (condition : Condition)
  | call
  | ret
  | msg
  | halt
deriving DecidableEq, Repr, Inhabited

namespace Opcode

/-- Every opcode. -/
def all : List Opcode :=
  [mov, inc, dec] ++ ArithOp.all.map arith ++ [cmp, jmp] ++ Condition.all.map jumpIf
    ++ [call, ret, msg, halt]

@[simp] theorem mem_all (op : Opcode) : op ∈ all := by
  cases op <;> simp [all]

/-- The name of an opcode in program texts. -/
def mnemonic : Opcode → String
  | mov => "mov"
  | inc => "inc"
  | dec => "dec"
  | arith .add => "add"
  | arith .sub => "sub"
  | arith .mul => "mul"
  | arith .div => "div"
  | cmp => "cmp"
  | jmp => "jmp"
  | jumpIf .eq => "je"
  | jumpIf .ne => "jne"
  | jumpIf .gt => "jg"
  | jumpIf .ge => "jge"
  | jumpIf .lt => "jl"
  | jumpIf .le => "jle"
  | call => "call"
  | ret => "ret"
  | msg => "msg"
  | halt => "end"

/-- The number of operands; `none` for messages, which take any number. -/
def arity? : Opcode → Option Nat
  | ret | halt => some 0
  | inc | dec | jmp | jumpIf _ | call => some 1
  | mov | arith _ | cmp => some 2
  | msg => none

/-- The opcode with the given mnemonic. -/
def ofMnemonic? (s : String) : Option Opcode :=
  all.find? (·.mnemonic == s)

/-- No two opcodes have one mnemonic. -/
theorem mnemonic_injective {a b : Opcode} (h : a.mnemonic = b.mnemonic) : a = b := by
  -- There are finitely many opcodes, and all pairs of them are tried.
  have key : ∀ a ∈ all, ∀ b ∈ all, a.mnemonic = b.mnemonic → a = b := by decide
  exact key a (mem_all a) b (mem_all b) h

/-- **A mnemonic is looked up as it is written**, and gives the one opcode that has
it. -/
theorem ofMnemonic?_eq_some_iff {s : String} {op : Opcode} :
    ofMnemonic? s = some op ↔ op.mnemonic = s := by
  constructor
  · intro h
    simpa using List.find?_some h
  · rintro rfl
    -- Some opcode is found, since `op` is in the list, and it can be no other one.
    cases h : ofMnemonic? op.mnemonic with
    | none => simpa using List.find?_eq_none.1 h op (mem_all op)
    | some a =>
      have ha : a.mnemonic = op.mnemonic := by simpa using List.find?_some h
      rw [mnemonic_injective ha]

@[simp] theorem ofMnemonic?_mnemonic (op : Opcode) : ofMnemonic? op.mnemonic = some op :=
  ofMnemonic?_eq_some_iff.2 rfl

end Opcode

/-- The kind of an instruction. -/
def Instruction.opcode : Instruction → Opcode
  | .mov .. => .mov
  | .inc _ => .inc
  | .dec _ => .dec
  | .arith op .. => .arith op
  | .cmp .. => .cmp
  | .jmp _ => .jmp
  | .jumpIf condition _ => .jumpIf condition
  | .call _ => .call
  | .ret => .ret
  | .msg _ => .msg
  | .halt => .halt

end TinyAsm

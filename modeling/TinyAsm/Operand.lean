import TinyAsm.Decimal

/-!
# Operands

An operand is a literal word or the name of a register. In a program text the two are
told apart by spelling alone: a numeral that fits a word is a literal, and any other
spelling names a register.

* `Operand.ofSpelling` reads an operand;
* `Operand.spelling` writes one.

Reading undoes writing for every literal (`Operand.ofSpelling_spelling_literal`), and for
a register unless it has the spelling of a literal (`Operand.ofSpelling_spelling_register`).
-/

namespace TinyAsm

/-- A literal, or a register to be read. -/
inductive Operand where
  | literal (value : Word)
  | register (name : String)
deriving DecidableEq, Repr, Inhabited

namespace Operand

/-- The operand a spelling stands for. -/
def ofSpelling (s : String) : Operand :=
  match Decimal.word? s.toList with
  | some value => .literal value
  | none => .register s

/-- The spelling of an operand. -/
def spelling : Operand → String
  | .literal value => Decimal.ofWord value
  | .register name => name

/-- A literal is never taken for a register. -/
@[simp] theorem ofSpelling_spelling_literal (value : Word) :
    ofSpelling (literal value).spelling = .literal value := by
  simp [ofSpelling, spelling, Decimal.word?_ofWord]

/-- A register is taken for a literal only if its name reads as a word. -/
theorem ofSpelling_spelling_register {name : String}
    (h : Decimal.word? name.toList = none) :
    ofSpelling (register name).spelling = .register name := by
  simp [ofSpelling, spelling, h]

/-- **Reading undoes writing** for every operand that reading can give. -/
theorem ofSpelling_spelling_ofSpelling (s : String) :
    ofSpelling (ofSpelling s).spelling = ofSpelling s := by
  -- A spelling that gave a register is none of a literal.
  cases h : Decimal.word? s.toList with
  | some value =>
    have hs : ofSpelling s = .literal value := by simp [ofSpelling, h]
    rw [hs, ofSpelling_spelling_literal]
  | none =>
    have hs : ofSpelling s = .register s := by simp [ofSpelling, h]
    rw [hs, ofSpelling_spelling_register h]

end Operand

end TinyAsm

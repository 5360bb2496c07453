import TinyAsm.Instruction.Basic
import TinyAsm.Table

/-!
# Programs

A program is a sequence of instructions and a table of labels. A label stands for the
position *before* the instruction it marks, `-1` at the top: the machine steps forward
after every instruction, a jump included, and so resumes right at the mark.

* `Program.fetch` is the instruction at a pointer, if there is one there;
* `Program.LabelsInRange` says that every label marks a place of the program, its end
  included.
-/

namespace TinyAsm

/-- A sequence of instructions, with labels. -/
structure Program where
  instructions : Array Instruction := #[]
  labels : Table := ∅
deriving DecidableEq

namespace Program

/-- The number of instructions. -/
def size (p : Program) : Nat :=
  p.instructions.size

/-- The instruction at a pointer. -/
def fetch (p : Program) (pointer : Word) : Option Instruction := do
  p.instructions[← pointer.index?]?

/-- Whether a label position is the one before an instruction, or before the end, of a
program of `size` instructions. -/
def isLabelPosition (size : Nat) (position : Word) : Bool :=
  -1 ≤ position.toInt && position.toInt < size

/-- Every label marks a place of the program. -/
def LabelsInRange (p : Program) : Prop :=
  ∀ (name : String) (position : Word), p.labels[name]? = some position →
    isLabelPosition p.size position

/-- What is fetched stands at the position that the pointer denotes. -/
theorem fetch_eq_some_iff {p : Program} {pointer : Word} {i : Instruction} :
    p.fetch pointer = some i
      ↔ ∃ n : Nat, pointer.toInt = n ∧ p.instructions[n]? = some i := by
  simp [fetch, Option.bind_eq_some_iff, Word.index?_eq_some_iff]

/-- Nothing is fetched before the first instruction or behind the last one, and only
there. -/
theorem fetch_eq_none_iff {p : Program} {pointer : Word} :
    p.fetch pointer = none ↔ pointer.toInt < 0 ∨ p.size ≤ pointer.toInt := by
  cases h : pointer.index? with
  | none =>
    have hn := Word.index?_eq_none_iff.1 h
    simp [fetch, h, hn]
  | some n =>
    have hn := Word.index?_eq_some_iff.1 h
    simp [fetch, h, size]
    omega

/-- The instruction at a position, which is just before the next one. -/
theorem fetch_before_succ {p : Program} {n : Nat} (h : n < Word.indexCount) :
    p.fetch (Word.before (n + 1)) = p.instructions[n]? := by
  have hn : (Word.before (n + 1)).index? = some n := by
    rw [Word.index?_eq_some_iff, Word.toInt_before h]
    omega
  rw [fetch, hn]
  rfl

end Program

end TinyAsm

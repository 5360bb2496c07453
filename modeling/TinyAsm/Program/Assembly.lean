import TinyAsm.Program.Basic
import TinyAsm.Source.Statement

/-!
# Assembling a program

Statements extend a program one by one: an instruction is put at the end, and a label is
bound to the position before the end. A label that is declared again moves.

* `Program.add` puts in one statement;
* `Program.extend` puts in lines up to the first that is no statement;
* `Program.assemble` makes a program of a whole text.
-/

namespace TinyAsm.Program

/-- The program with one more statement. -/
def add (p : Program) : Statement → Program
  | .label name => { p with labels := p.labels.insert name (Word.before p.size) }
  | .instruction i => { p with instructions := p.instructions.push i }

/-- The program with the statements of the given lines. The first line that is no
statement is reported, and only the lines before it count. -/
def extend (p : Program) : List Line → Program × Option AssemblyError
  | [] => (p, none)
  | line :: lines =>
    match Statement.ofLine line with
    | .ok s => extend (p.add s) lines
    | .error e => (p, some e)

/-- The program of a text, or what is wrong with its first bad line. -/
def assemble (source : String) : Except AssemblyError Program :=
  match extend {} (Line.ofSource source) with
  | (p, none) => .ok p
  | (_, some e) => .error e

@[simp] theorem size_add_label (p : Program) (name : String) :
    (p.add (.label name)).size = p.size := rfl

@[simp] theorem size_add_instruction (p : Program) (i : Instruction) :
    (p.add (.instruction i)).size = p.size + 1 := by
  simp [add, size]

@[simp] theorem extend_nil (p : Program) : p.extend [] = (p, none) := rfl

/-- A statement is put in before the lines behind it are read. -/
theorem extend_cons_of_ok {p : Program} {line : Line} {lines : List Line} {s : Statement}
    (h : Statement.ofLine line = .ok s) :
    p.extend (line :: lines) = (p.add s).extend lines := by
  simp [extend, h]

/-- Behind a bad line nothing is read. -/
theorem extend_cons_of_error {p : Program} {line : Line} {lines : List Line}
    {e : AssemblyError} (h : Statement.ofLine line = .error e) :
    p.extend (line :: lines) = (p, some e) := by
  simp [extend, h]

/-- Lines can be put in a part at a time, as long as no line is bad. -/
theorem extend_append (p : Program) (lines lines' : List Line) :
    p.extend (lines ++ lines') =
      match p.extend lines with
      | (q, none) => q.extend lines'
      | (q, some e) => (q, some e) := by
  induction lines generalizing p with
  | nil => rfl
  | cons line lines ih =>
    cases h : Statement.ofLine line with
    | ok s => rw [List.cons_append, extend_cons_of_ok h, extend_cons_of_ok h, ih]
    | error e => rw [List.cons_append, extend_cons_of_error h, extend_cons_of_error h]

end TinyAsm.Program

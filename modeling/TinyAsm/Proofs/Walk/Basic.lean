import TinyAsm.Interpret
import TinyAsm.Proofs.Program.Lines

/-!
# Walking through a program text

A second meaning of program texts, which knows neither programs nor machines. A walker
stands on a line of the text. It reads the line, does what the line says and goes on; it
finds labels by looking for their declarations, and remembers the lines it has to come back
to by their positions.

* A label is passed over, and does not count as a step.
* An instruction is read off its line each time the walker comes to it.
* A jump or a call goes to the line just after the last declaration of its label, in the
  whole text; a call remembers the line after itself, and a return goes back to the line
  that was remembered last.
* Past the last line the walk has run off. That is found out before the step limit is
  looked at, and the limit is looked at before each instruction.

`Walker.turn` is one line, and `Walker.walk` the whole walk, which ends because every turn
comes nearer to the step limit or, with a label, to the end of the text
(`Walker.measure_lt_of_turn`). That assembling a text and running the program comes to the
same is proved in `TinyAsm.Proofs.Walk.Simulation`.
-/

namespace TinyAsm

/-- Somebody who walks through the lines of a program text. Positions count lines from
zero, and the line to come back to next is the first of the `returns`. -/
structure Walker where
  registers : Table := ∅
  comparison : Option (Word × Word) := none
  returns : List Nat := []
  position : Nat := 0
  halted : Bool := false
  output : String := ""
  steps : Nat := 0
deriving DecidableEq

namespace Walker

/-! ### What a walker reads -/

/-- The value of a register that something was stored into. -/
def register (w : Walker) (name : String) : Except Fault Word :=
  match w.registers[name]? with
  | some value => .ok value
  | none => .error (.uninitialized name)

/-- The value of an operand: a literal is its own, and a register is looked up. -/
def value (w : Walker) : Operand → Except Fault Word
  | .literal value => .ok value
  | .register name => w.register name

/-- A part of a message: its text, or the decimal numeral of a value. -/
def spell (w : Walker) : MessagePart → Except Fault String
  | .text content => .ok content
  | .value operand => Decimal.ofWord <$> w.value operand

/-- The line to go to for a label. -/
def destination (lines : List Line) (label : String) : Except Fault Nat :=
  match Line.landing? label lines with
  | some position => .ok position
  | none => .error (.unknownLabel label)

/-! ### What a walker does -/

/-- Moves to a line. -/
def moveTo (w : Walker) (position : Nat) : Walker :=
  { w with position := position }

/-- Stores a value into a register and moves to the next line. -/
def store (w : Walker) (name : String) (value : Word) : Walker :=
  { w with registers := w.registers.insert name value, position := w.position + 1 }

/-- Does what an instruction on the walker's line says. -/
def perform (lines : List Line) (w : Walker) : Instruction → Except Fault Walker
  | .mov target source => do
    let y ← w.value source
    return w.store target y
  | .inc target => do
    let x ← w.register target
    return w.store target (x + 1)
  | .dec target => do
    let x ← w.register target
    return w.store target (x - 1)
  | .arith op target source => do
    let x ← w.register target
    let y ← w.value source
    let z ← op.apply x y
    return w.store target z
  | .cmp left right => do
    let x ← w.value left
    let y ← w.value right
    return { w with comparison := some (x, y), position := w.position + 1 }
  | .jmp label => do
    let position ← destination lines label
    return w.moveTo position
  | .jumpIf condition label =>
    match w.comparison with
    | none => .error .noComparison
    | some (x, y) =>
      if condition.holds x y then do
        let position ← destination lines label
        return w.moveTo position
      else return w.moveTo (w.position + 1)
  | .call label => do
    let position ← destination lines label
    return { w with returns := (w.position + 1) :: w.returns, position := position }
  | .ret =>
    match w.returns with
    | [] => .error .emptyStack
    | position :: returns => return { w with returns := returns, position := position }
  | .msg parts => do
    let texts ← parts.mapM w.spell
    return { w with output := String.join texts, position := w.position + 1 }
  | .halt => return { w with halted := true, position := w.position + 1 }

/-- What comes of the walker's line: the walk goes on, or it ends. -/
inductive Turn where
  | next (w : Walker)
  | stop (result : Except InterpretError Outcome) (w : Walker)

/-- One turn of a walk in which at most `bound` instructions may be performed. A line that
is no statement is found out when the walker comes to it. -/
def turn (lines : List Line) (bound : Nat) (w : Walker) : Turn :=
  if w.halted then .stop (.ok (.halted w.output)) w
  else match lines[w.position]? with
  | none => .stop (.ok .runoff) w
  | some line =>
    match Statement.ofLine line with
    | .error e => .stop (.error (.assembly e)) w
    | .ok (.label _) => .next (w.moveTo (w.position + 1))
    | .ok (.instruction i) =>
      if bound ≤ w.steps then .stop (.error (.run (.stepLimit bound))) w
      else match w.perform lines i with
      | .ok w' => .next { w' with steps := w.steps + 1 }
      | .error f => .stop (.error (.run (.fault f))) w

/-- **Every turn makes progress**: it performs one of the instructions that are still
allowed, or passes one of the lines that are still ahead. -/
theorem measure_lt_of_turn {lines : List Line} {bound : Nat} {w w' : Walker}
    (h : turn lines bound w = .next w') :
    Prod.Lex (· < ·) (· < ·) (bound - w'.steps, lines.length - w'.position)
      (bound - w.steps, lines.length - w.position) := by
  unfold turn at h
  split at h
  · contradiction
  · split at h
    · contradiction
    · next line hline =>
      have hlt : w.position < lines.length := (List.getElem?_eq_some_iff.1 hline).1
      split at h
      · contradiction
      · -- a label: the steps stay, and there is one line less ahead
        cases h
        refine Prod.Lex.right _ ?_
        simp only [moveTo]
        omega
      · split at h
        · contradiction
        · next hb =>
          split at h
          · -- an instruction: one step less is left
            cases h
            refine Prod.Lex.left _ _ ?_
            simp only
            omega
          · contradiction

/-- The whole walk: how it ends, and where it leaves the walker. -/
def walk (lines : List Line) (bound : Nat) (w : Walker) :
    Except InterpretError Outcome × Walker :=
  match _h : turn lines bound w with
  | .next w' => walk lines bound w'
  | .stop result w' => (result, w')
termination_by (bound - w.steps, lines.length - w.position)
decreasing_by exact measure_lt_of_turn _h

section

variable {lines : List Line} {bound : Nat} {w w' : Walker}

/-- A walk goes on where a turn has led. -/
theorem walk_of_turn_eq_next (h : turn lines bound w = .next w') :
    walk lines bound w = walk lines bound w' := by
  rw [walk]
  split
  · next h' => rw [h] at h'; cases h'; rfl
  · next h' => rw [h] at h'; contradiction

/-- A walk ends with a turn that stops. -/
theorem walk_of_turn_eq_stop {result : Except InterpretError Outcome}
    (h : turn lines bound w = .stop result w') : walk lines bound w = (result, w') := by
  rw [walk]
  split
  · next h' => rw [h] at h'; contradiction
  · next h' => rw [h] at h'; cases h'; rfl

end

end Walker

end TinyAsm

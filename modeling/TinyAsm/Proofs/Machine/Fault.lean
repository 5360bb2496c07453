import TinyAsm.Proofs.Except
import TinyAsm.Proofs.Machine.Effect

/-!
# Which read meets which fault

Every fault has a read of its own, and says what was missing there. The lemmas of this module
say so of each way to read, and `meets_emptyStack_iff` draws the consequence for returns: no
other instruction finds the stack empty.
-/

namespace TinyAsm

namespace Machine

variable {p : Program} {m : Machine} {i : Instruction} {f : Fault}

/-- A register is not read if it has no value, and its name is reported. -/
theorem register_eq_error_iff {name : String} :
    m.register name = .error f ↔ m.registers[name]? = none ∧ f = .uninitialized name := by
  unfold register
  cases m.registers[name]? <;> simp [eq_comm]

/-- An operand is not read if it is such a register; a literal always is. -/
theorem value_eq_error_iff {o : Operand} :
    m.value o = .error f ↔ ∃ name, o = .register name ∧ m.register name = .error f := by
  cases o with
  | literal value => simp [Machine.value]
  | register name => simp [Machine.value]

/-- There is no pair to be read before the first comparison. -/
theorem compared_eq_error_iff :
    m.compared = .error f ↔ m.comparison = none ∧ f = .noComparison := by
  unfold compared
  cases m.comparison <;> simp [eq_comm]

/-- A label is not found if it is not in the table, and its name is reported. -/
theorem position_eq_error_iff {label : String} :
    p.position label = .error f ↔ p.labels[label]? = none ∧ f = .unknownLabel label := by
  unfold Program.position
  cases p.labels[label]? <;> simp [eq_comm]

/-- The only operation that can fail is a division, and only by zero. -/
theorem apply_eq_error_iff {op : ArithOp} {x y : Word} :
    op.apply x y = .error f ↔ op = .div ∧ y = 0 ∧ f = .divisionByZero := by
  cases op with
  | add | sub | mul => simp [ArithOp.apply]
  | div =>
    unfold ArithOp.apply
    cases hq : Word.floorDiv? x y with
    | none => simp [Word.floorDiv?_eq_none_iff.1 hq, eq_comm]
    | some q =>
      have hy : y ≠ 0 := fun hy => by simp [Word.floorDiv?_eq_none_iff.2 hy] at hq
      simp [hy]

/-- A part of a message is not rendered if it is an operand that is not read. -/
theorem render_eq_error_iff {part : MessagePart} :
    m.render part = .error f ↔ ∃ o, part = .value o ∧ m.value o = .error f := by
  cases part with
  | text content => simp [render]
  | value o => simp [render, Except.map_eq_error_iff]

/-- **Only a return finds the stack empty.** -/
theorem meets_emptyStack_iff : Meets p m i .emptyStack ↔ i = .ret ∧ m.stack = [] := by
  -- A register that is read is not the stack.
  have hregister {name : String} : m.register name ≠ .error .emptyStack := fun h =>
    nomatch (register_eq_error_iff.1 h).2
  have hvalue {o : Operand} : m.value o ≠ .error .emptyStack := fun h =>
    let ⟨_, _, hr⟩ := value_eq_error_iff.1 h
    hregister hr
  have hposition {label : String} : p.position label ≠ .error .emptyStack := fun h =>
    nomatch (position_eq_error_iff.1 h).2
  constructor
  · intro h
    -- Each way to fail is the fault of one read, and that read reports something else.
    cases h with
    | mov h | arithSource _ h | cmpLeft h | cmpRight _ h => exact absurd h hvalue
    | inc h | dec h | arithTarget h => exact absurd h hregister
    | arithApply _ _ h => exact nomatch (apply_eq_error_iff.1 h).2.2
    | jmp h | jumpLabel _ _ h | call h => exact absurd h hposition
    | jumpCompared h => exact nomatch (compared_eq_error_iff.1 h).2
    | ret hs => exact ⟨rfl, hs⟩
    | msg h =>
      obtain ⟨part, -, hpart⟩ := Except.exists_of_mapM_eq_error h
      obtain ⟨o, -, ho⟩ := render_eq_error_iff.1 hpart
      exact absurd ho hvalue
  · rintro ⟨rfl, hs⟩
    exact .ret hs

end Machine

end TinyAsm

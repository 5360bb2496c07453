import TinyAsm.Machine.Action
import TinyAsm.Machine.Outcome

/-!
# What an instruction does

`Machine.execute` applies one instruction. It neither steps the pointer forward nor counts
the instruction: that is for `Machine.cycle`, which says what follows an instruction that
was fetched.

The order in which an instruction reads decides which fault it meets: the target of an
operation before its operand, and both before a zero divisor; the compared pair before the
label of a conditional jump, which is looked up only if the jump is taken.
-/

namespace TinyAsm

/-- The result of an arithmetic operation. -/
def ArithOp.apply (op : ArithOp) (x y : Word) : Except Fault Word :=
  match op with
  | add => .ok (x + y)
  | sub => .ok (x - y)
  | mul => .ok (x * y)
  | div =>
    match Word.floorDiv? x y with
    | some q => .ok q
    | none => .error .divisionByZero

namespace Machine

open TinyAsm.Action

/-- Executes an instruction of the program. -/
def execute (p : Program) : Instruction → Action Unit
  | .mov target source => do
    let y ← look (·.value source)
    modify (·.store target y)
  | .inc target => do
    let x ← look (·.register target)
    modify (·.store target (x + 1))
  | .dec target => do
    let x ← look (·.register target)
    modify (·.store target (x - 1))
  | .arith op target source => do
    let x ← look (·.register target)
    let y ← look (·.value source)
    let z ← look fun _ => op.apply x y
    modify (·.store target z)
  | .cmp left right => do
    let x ← look (·.value left)
    let y ← look (·.value right)
    modify ({ · with comparison := some (x, y) })
  | .jmp label => do
    let position ← look fun _ => p.position label
    modify (·.goto position)
  | .jumpIf condition label => do
    let (x, y) ← look compared
    if condition.holds x y then
      let position ← look fun _ => p.position label
      modify (·.goto position)
  | .call label => do
    let position ← look fun _ => p.position label
    modify (·.enter position)
  | .ret => do
    -- The place is taken off the stack before the pointer moves.
    let position ← pop
    modify (·.goto position)
  | .msg parts => do
    -- All parts are rendered before the output changes.
    let texts ← look fun m => parts.mapM m.render
    modify ({ · with output := String.join texts })
  | .halt => modify ({ · with halted := true })

/-- What happens to a machine at one instruction: it goes on, or it stops. -/
inductive Cycle where
  | next (m : Machine)
  | stop (result : Except RunError Outcome) (m : Machine)

/-- Executes a fetched instruction, counts it and steps the pointer forward. A pointer
that has no next value has left the program. -/
def cycle (p : Program) (i : Instruction) (m : Machine) : Cycle :=
  match execute p i m with
  | .error f m => .stop (.error (.fault f)) m
  | .ok () m =>
    -- An instruction that was executed counts, also if the pointer cannot go on.
    let m := { m with steps := m.steps + 1 }
    match m.pointer.next? with
    | some pointer => .next { m with pointer := pointer }
    | none => .stop (.ok .runoff) m

/-! ### Counting -/

/-- Executing does not count. -/
theorem steps_of_execute {p : Program} {i : Instruction} {m m' : Machine}
    (h : execute p i m = .ok () m') : m'.steps = m.steps := by
  -- Most instructions read and then write once, to other parts of the machine. A
  -- conditional jump may write nothing, and a return changes the machine as it reads.
  cases i with
  | jumpIf condition label =>
    simp only [execute, ok_bind_iff, ok_look_iff] at h
    obtain ⟨⟨x, y⟩, m₁, ⟨_, rfl⟩, h⟩ := h
    split at h
    · simp only [ok_bind_iff, ok_look_iff, ok_modify_iff] at h
      obtain ⟨position, m₂, ⟨_, rfl⟩, rfl⟩ := h
      rfl
    · simp only [ok_pure_iff, true_and] at h
      rw [h]
  | ret =>
    simp only [execute, ok_bind_iff, ok_pop_iff, ok_modify_iff] at h
    obtain ⟨position, m₁, ⟨stack, _, rfl⟩, rfl⟩ := h
    rfl
  | _ =>
    simp only [execute, ok_bind_iff, ok_look_iff, ok_modify_iff] at h
    grind [store, goto, enter]

/-- A cycle that goes on counts one instruction. -/
theorem steps_of_cycle {p : Program} {i : Instruction} {m m' : Machine}
    (h : m.cycle p i = .next m') : m'.steps = m.steps + 1 := by
  unfold cycle at h
  split at h
  · -- A fault stops the machine.
    contradiction
  · rename_i m₁ h₁
    dsimp only at h
    split at h
    · cases h
      simp [steps_of_execute h₁]
    · contradiction

end Machine

end TinyAsm

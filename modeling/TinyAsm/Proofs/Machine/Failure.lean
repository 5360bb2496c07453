import TinyAsm.Proofs.Machine.History

/-!
# A failure changes nothing

An instruction that cannot be executed leaves the machine as it found it, and so does the turn of
a run that comes to such an instruction, or that has no step left. This module carries that to
whole runs: what a failed run leaves is the machine at the head of the turn that failed.

* `Fails p c m e` — the turn of the machine `m` comes to an instruction, and fails with `e`. The
  definition leaves open what the failed instruction has done to the machine;
* `FailsAfter p c m₀ es e m` — the run that starts on `m₀` has executed `es`, and then the turn of
  the machine `m` fails;
* `result_eq_error_iff` — a run ends with an error exactly if one of its turns fails;
* `failureChangesNothing` — what that means for the machine: it is the one on which the failing
  turn began, with the pointer at the instruction that failed and the attempt not counted.

That a failed instruction undoes nothing, since there is nothing to undo, is
`execute_eq_error_iff` of `TinyAsm.Proofs.Machine.Effect`: an instruction reads all that it needs
before it writes, also when it has several operands or is a message of many parts.
-/

namespace TinyAsm

namespace Machine

/-- **A turn that fails.** There is an instruction at the pointer; no step is left for it, or it
cannot be executed, whatever it may have done until then. -/
inductive Fails (p : Program) (c : Config) (m : Machine) : RunError → Prop where
  | limit {i : Instruction} (running : m.halted = false)
      (fetched : p.fetch m.pointer = some i) (reached : c.bound ≤ m.steps) :
      Fails p c m (.stepLimit c.bound)
  | fault {i : Instruction} {f : Fault} {m' : Machine} (running : m.halted = false)
      (fetched : p.fetch m.pointer = some i) (within : m.steps < c.bound)
      (failed : execute p i m = .error f m') :
      Fails p c m (.fault f)

/-- **A run that fails**, after the moments `es`, in the turn of the machine `m`. -/
structure FailsAfter (p : Program) (c : Config) (m₀ : Machine) (es : List Moment) (e : RunError)
    (m : Machine) : Prop where
  history : History p c m₀ es m
  fails : Fails p c m e

variable {p : Program} {c : Config} {m₀ m m' : Machine} {i : Instruction} {f : Fault}
  {e : RunError} {es : List Moment}

/-! ### One instruction and one turn -/

/-- **A failed instruction changes nothing.** -/
theorem machine_eq_of_execute_eq_error (h : execute p i m = .error f m') : m' = m :=
  (execute_eq_error_iff.1 h).1

/-- A turn that fails ends the run, and leaves the machine as it was. -/
theorem Fails.ends (h : Fails p c m e) : Ends p c m (.error e) m := by
  cases h with
  | limit running fetched reached => exact .limit running fetched reached
  | fault running fetched within failed =>
    -- Whatever the failed instruction may have done, it was nothing.
    obtain ⟨-, meets⟩ := execute_eq_error_iff.1 failed
    exact .fault running fetched within meets

/-- There is no other way to end with an error. -/
theorem Ends.fails (h : Ends p c m (.error e) m') : Fails p c m e := by
  cases h with
  | limit running fetched reached => exact .limit running fetched reached
  | fault running fetched within meets =>
    exact .fault running fetched within meets.execute_eq

/-- The instruction at the pointer is the one that failed; if it was tried, then it would fail
again on the machine that it has left. -/
theorem Fails.exists_fetch (h : Fails p c m e) :
    ∃ i, p.fetch m.pointer = some i ∧ ∀ f, e = .fault f → execute p i m = .error f m := by
  cases h with
  | limit running fetched reached => exact ⟨_, fetched, nofun⟩
  | @fault i f m' running fetched within failed =>
    refine ⟨i, fetched, ?_⟩
    rintro f' ⟨⟩
    obtain rfl : m' = m := machine_eq_of_execute_eq_error failed
    exact failed

/-! ### Whole runs -/

/-- A turn begins on the machine on which the run started, or on the one to which the last
instruction before it has led. -/
theorem History.eq_or_exists_cycle (h : History p c m₀ es m) :
    (es = [] ∧ m = m₀) ∨
      ∃ before last, es = before ++ [last] ∧
        last.machine.cycle p last.instruction = .next m := by
  cases h with
  | start => exact .inl ⟨rfl, rfl⟩
  | @turn before m₁ m₂ i pointer _ _ _ _ effect next =>
    exact .inr ⟨before, ⟨m₁, i⟩, rfl, cycle_of_effect effect next⟩

/-- A run that fails is over with the turn that fails. -/
theorem FailsAfter.run_eq (h : FailsAfter p c m₀ es e m) :
    (m₀.run p c).result = .error e ∧ (m₀.run p c).machine = m := by
  obtain ⟨hresult, hmachine⟩ := h.history.run_eq
  obtain ⟨hends, hends'⟩ := h.fails.ends.run_eq
  exact ⟨hresult.trans hends, hmachine.trans hends'⟩

/-- **A run ends with an error exactly if one of its turns fails.** -/
theorem result_eq_error_iff :
    (m₀.run p c).result = .error e ↔ ∃ es m, FailsAfter p c m₀ es e m := by
  constructor
  · intro hresult
    -- Every run has a last turn, and it is the one that ends with the error.
    obtain ⟨es, m, history, ends⟩ := exists_history_ends p c m₀
    rw [hresult] at ends
    exact ⟨es, m, history, ends.fails⟩
  · rintro ⟨es, m, h⟩
    exact h.run_eq.1

/-- **What failures do in the runs of a program**: nothing. -/
structure FailureChangesNothing (p : Program) (c : Config) : Prop where
  /-- An instruction that fails leaves the machine as it was, whatever the machine. -/
  instruction : ∀ {i m f m'}, execute p i m = .error f m' → m' = m
  /-- A run ends with an error exactly if one of its turns fails. -/
  result_iff : ∀ {m₀ e}, (m₀.run p c).result = .error e ↔ ∃ es m, FailsAfter p c m₀ es e m
  /-- What the run leaves is the machine on which that turn began. -/
  machine_eq : ∀ {m₀ es e m}, FailsAfter p c m₀ es e m → (m₀.run p c).machine = m
  /-- If nothing was executed before, then that is the machine on which the run started;
  otherwise it is the one to which the last executed instruction has led. -/
  begins : ∀ {m₀ es e m}, FailsAfter p c m₀ es e m →
    (es = [] ∧ m = m₀) ∨
      ∃ before last, es = before ++ [last] ∧
        last.machine.cycle p last.instruction = .next m
  /-- The pointer is still at the instruction that failed. -/
  pointer : ∀ {m₀ es e m}, FailsAfter p c m₀ es e m →
    ∃ i, p.fetch (m₀.run p c).machine.pointer = some i ∧
      ∀ f, e = .fault f → execute p i (m₀.run p c).machine = .error f (m₀.run p c).machine
  /-- The instructions that were executed are counted, and the one that failed is not. -/
  steps_eq : ∀ {m₀ es e m}, FailsAfter p c m₀ es e m →
    (m₀.run p c).machine.steps = m₀.steps + es.length

/-- A failure changes nothing in the runs of every program, whatever its labels are. -/
theorem failureChangesNothing (p : Program) (c : Config) : FailureChangesNothing p c where
  instruction := machine_eq_of_execute_eq_error
  result_iff := result_eq_error_iff
  machine_eq h := h.run_eq.2
  begins h := h.history.eq_or_exists_cycle
  pointer := by
    intro m₀ es e m h
    rw [h.run_eq.2]
    exact h.fails.exists_fetch
  steps_eq := by
    intro m₀ es e m h
    rw [h.run_eq.2]
    exact h.history.steps_eq

/-- The third part of a message cannot be rendered: the output is the one from before, and the
message is not counted. -/
example :
    run ⟨#[.msg [.text "kept"], .msg [.text "lost", .value (.literal 1), .value (.register "x")]],
      ∅⟩ {} {} =
      ⟨.error (.fault (.uninitialized "x")), { output := "kept", pointer := 1, steps := 1 },
        []⟩ := by
  decide +kernel

end Machine

end TinyAsm

import Mathlib.Logic.Relation
import TinyAsm.Proofs.Machine.Effect

/-!
# Turns of a run

`Machine.run` counts a budget down. This module describes the same run by its turns, as a
relation between the machines that stand at the head of the loop:

* `Turn p c m m'` — the machine `m` executes an instruction and the run goes on with `m'`;
* `Ends p c m r m'` — the run ends with the turn of `m`, with the result `r`, and leaves the
  machine `m'`.

Every machine has exactly one of the two before it (`turn_or_ends`, `Turn.run_eq`,
`Ends.run_eq`), and so every run is a chain of turns with an end behind it
(`exists_turns_ends`). What holds at the head of every turn is proved by induction on that
chain; what holds of a finished run is read off its end.

`Reachable p m` says that some history of runs of `p` comes across `m`, and
`Reachable.invariant` is the rule for what holds of all such machines.
-/

namespace TinyAsm

namespace Machine

/-- **A turn after which the run goes on.** The machine is not halted, its pointer is in the
program, the step limit is not reached, and the pointer can step forward from where the
instruction leaves it. -/
inductive Turn (p : Program) (c : Config) (m : Machine) : Machine → Prop where
  | intro {i : Instruction} {m₁ : Machine} {pointer : Word} (running : m.halted = false)
      (fetched : p.fetch m.pointer = some i) (within : m.steps < c.bound)
      (effect : Effect p m i m₁) (next : m₁.pointer.next? = some pointer) :
      Turn p c m { m₁ with steps := m₁.steps + 1, pointer := pointer }

/-- **A turn with which the run ends**, one constructor for each way out of the loop. -/
inductive Ends (p : Program) (c : Config) (m : Machine) :
    Except RunError Outcome → Machine → Prop where
  | halted (halt : m.halted = true) : Ends p c m (.ok (.halted m.output)) m
  | runoff (running : m.halted = false) (fetched : p.fetch m.pointer = none) :
      Ends p c m (.ok .runoff) m
  /-- No step is left. In a run without a limit, the step counter is full (`Config.bound`), and
  this end stands for a run that goes on. -/
  | limit {i : Instruction} (running : m.halted = false)
      (fetched : p.fetch m.pointer = some i) (reached : c.bound ≤ m.steps) :
      Ends p c m (.error (.stepLimit c.bound)) m
  | fault {i : Instruction} {f : Fault} (running : m.halted = false)
      (fetched : p.fetch m.pointer = some i) (within : m.steps < c.bound)
      (meets : Meets p m i f) :
      Ends p c m (.error (.fault f)) m
  /-- The pointer has no next value, and the instruction is counted all the same. -/
  | overflow {i : Instruction} {m₁ : Machine} (running : m.halted = false)
      (fetched : p.fetch m.pointer = some i) (within : m.steps < c.bound)
      (effect : Effect p m i m₁) (next : m₁.pointer.next? = none) :
      Ends p c m (.ok .runoff) { m₁ with steps := m₁.steps + 1 }

variable {p : Program} {c : Config} {m m' m₁ : Machine} {i : Instruction} {f : Fault}

/-! ### The cycle of a fetched instruction -/

/-- An instruction that can be executed is counted, and the pointer steps forward from where the
effect has left it. -/
theorem cycle_of_effect {pointer : Word} (h : Effect p m i m₁)
    (hn : m₁.pointer.next? = some pointer) :
    m.cycle p i = .next { m₁ with steps := m₁.steps + 1, pointer := pointer } := by
  simp only [cycle, h.execute_eq, hn]

/-- An instruction after which the pointer cannot step forward is counted, and the run has run
off. -/
theorem cycle_of_effect_of_next?_eq_none (h : Effect p m i m₁)
    (hn : m₁.pointer.next? = none) :
    m.cycle p i = .stop (.ok .runoff) { m₁ with steps := m₁.steps + 1 } := by
  simp only [cycle, h.execute_eq, hn]

/-- An instruction that cannot be executed stops the run, and is not counted. -/
theorem cycle_of_meets (h : Meets p m i f) :
    m.cycle p i = .stop (.error (.fault f)) m := by
  simp only [cycle, h.execute_eq]

/-! ### A run by its first turn -/

/-- A turn takes nothing away from what the run comes to. -/
theorem Turn.run_eq (h : Turn p c m m') :
    (m.run p c).result = (m'.run p c).result ∧ (m.run p c).machine = (m'.run p c).machine := by
  cases h with
  | intro running fetched within effect next =>
    -- The loop asks what the turn has answered, and goes on with the machine after it.
    rw [run_of_cycle_eq_next running fetched within (cycle_of_effect effect next)]
    exact ⟨rfl, rfl⟩

/-- An end is what the run comes to. -/
theorem Ends.run_eq {r : Except RunError Outcome} (h : Ends p c m r m') :
    (m.run p c).result = r ∧ (m.run p c).machine = m' := by
  cases h with
  | halted halt => rw [run_of_halted halt]; exact ⟨rfl, rfl⟩
  | runoff running fetched => rw [run_of_fetch_eq_none running fetched]; exact ⟨rfl, rfl⟩
  | limit running fetched reached =>
    rw [run_of_bound_le running fetched reached]; exact ⟨rfl, rfl⟩
  | fault running fetched within meets =>
    rw [run_of_cycle_eq_stop running fetched within (cycle_of_meets meets)]; exact ⟨rfl, rfl⟩
  | overflow running fetched within effect next =>
    rw [run_of_cycle_eq_stop running fetched within
      (cycle_of_effect_of_next?_eq_none effect next)]
    exact ⟨rfl, rfl⟩

/-- Every machine takes a turn or ends its run. -/
theorem turn_or_ends (p : Program) (c : Config) (m : Machine) :
    (∃ m', Turn p c m m') ∨ ∃ r m', Ends p c m r m' := by
  -- The questions are those of the loop, in its order: halted, run off, out of steps.
  cases running : m.halted with
  | true => exact .inr ⟨_, _, .halted running⟩
  | false =>
    cases fetched : p.fetch m.pointer with
    | none => exact .inr ⟨_, _, .runoff running fetched⟩
    | some i =>
      rcases Nat.lt_or_ge m.steps c.bound with within | reached
      · -- Now the instruction is executed; it fails, or the pointer steps forward, or cannot.
        cases hx : execute p i m with
        | error f m₁ =>
          obtain ⟨-, meets⟩ := execute_eq_error_iff.1 hx
          exact .inr ⟨_, _, .fault running fetched within meets⟩
        | ok u m₁ =>
          have effect : Effect p m i m₁ := execute_eq_ok_iff.1 hx
          cases next : m₁.pointer.next? with
          | none => exact .inr ⟨_, _, .overflow running fetched within effect next⟩
          | some pointer => exact .inl ⟨_, .intro running fetched within effect next⟩
      · exact .inr ⟨_, _, .limit running fetched reached⟩

/-! ### A run by all its turns -/

/-- A turn counts one instruction. -/
theorem Turn.steps_eq (h : Turn p c m m') : m'.steps = m.steps + 1 := by
  cases h with
  | intro _ _ _ effect next => exact steps_of_cycle (cycle_of_effect effect next)

/-- **No turn is taken at the limit**: a step is left when a turn begins. -/
theorem Turn.steps_lt (h : Turn p c m m') : m.steps < c.bound := by
  cases h with
  | intro _ _ within _ _ => exact within

/-- **Every run is a chain of turns with an end behind it.** -/
theorem exists_turns_ends (p : Program) (c : Config) (m : Machine) :
    ∃ m₁, Relation.ReflTransGen (Turn p c) m m₁ ∧
      Ends p c m₁ (m.run p c).result (m.run p c).machine := by
  -- Every turn takes one off the instructions that are left to the limit.
  induction hn : c.bound - m.steps using Nat.strongRecOn generalizing m with
  | ind n ih =>
    rcases turn_or_ends p c m with ⟨m', turn⟩ | ⟨r, m', ends⟩
    · -- a turn: the rest of the run has fewer instructions left
      have hs := turn.steps_eq
      have hb := turn.steps_lt
      obtain ⟨m₁, turns, ends⟩ := ih (c.bound - m'.steps) (by omega) m' rfl
      obtain ⟨hr, hm⟩ := turn.run_eq
      rw [← hr, ← hm] at ends
      exact ⟨m₁, .head turn turns, ends⟩
    · -- an end: the chain is empty
      obtain ⟨hr, hm⟩ := ends.run_eq
      rw [hr, hm]
      exact ⟨m, .refl, ends⟩

/-- What holds of a machine holds after any chain of turns that keep it. -/
theorem turns_invariant {P : Machine → Prop}
    (turn : ∀ {m m' : Machine}, P m → Turn p c m m' → P m')
    (turns : Relation.ReflTransGen (Turn p c) m m') (h : P m) : P m' := by
  induction turns with
  | refl => exact h
  | tail _ t ih => exact turn ih t

/-- What a run leaves has every property that turns and ends keep. -/
theorem run_invariant {P : Machine → Prop}
    (turn : ∀ {m m' : Machine}, P m → Turn p c m m' → P m')
    (ends : ∀ {m m' : Machine} {r : Except RunError Outcome}, P m → Ends p c m r m' → P m')
    (h : P m) : P (m.run p c).machine := by
  obtain ⟨m₁, turns, hends⟩ := exists_turns_ends p c m
  exact ends (turns_invariant turn turns h) hends

/-! ### Histories of runs -/

/-- **The machines that runs of a program come across**, when the first of them starts on a
machine that was just switched on. A history goes on from the head of a turn, or from what a
run has left, whatever the run came to; the step limit may differ each time. -/
inductive Reachable (p : Program) : Machine → Prop where
  | start : Reachable p {}
  | turn {m m' : Machine} {c : Config} (h : Reachable p m) (t : Turn p c m m') : Reachable p m'
  | run {m : Machine} (c : Config) (h : Reachable p m) : Reachable p (m.run p c).machine

/-- A property of the machine that was just switched on is a property of every reachable
machine, if turns and ends keep it. -/
theorem Reachable.invariant {P : Machine → Prop} (start : P {})
    (turn : ∀ {m m' : Machine} {c : Config}, P m → Turn p c m m' → P m')
    (ends : ∀ {m m' : Machine} {c : Config} {r : Except RunError Outcome},
      P m → Ends p c m r m' → P m')
    (h : Reachable p m) : P m := by
  induction h with
  | start => exact start
  | turn _ t ih => exact turn ih t
  -- A whole run is turns and an end, and so nothing new has to be kept.
  | run c _ ih => exact run_invariant turn ends ih

end Machine

end TinyAsm

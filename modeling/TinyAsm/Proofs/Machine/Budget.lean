import TinyAsm.Proofs.Machine.History
import TinyAsm.Proofs.Machine.Resume

/-!
# What a run comes to, and when

A run under a step limit comes to an end, and the machine that it leaves tells how it ended.

* `History.length_le` — no history is longer than what was left to the limit, whatever jumps it
  went through;
* `result_eq_iff` — a run has a result if and only if the machine that it leaves would end its
  own run with that result at once;
* `Tells p limit m r` — of a machine that ends at once, this says in terms of the state alone
  which result it is: the halt flag comes first, then the place of the pointer, then the step
  counter, and only then the instruction at the pointer;
* `run_eq_of_steps_le`, `result_of_bound_lt` — the instructions that a run has executed are just
  what a limit has to allow: with as many the run ends in the same way, with fewer it is given up;
* `run_classified` — all of it for the runs under a given limit.

The first two of these hold for runs that start on any machine. How many instructions a run has
executed is told by its step counter only if the counter was zero at first, and so the last ones
are about machines that were just switched on.
-/

namespace TinyAsm

/-- The pointer is at an instruction of the program. -/
def Program.Holds (p : Program) (pointer : Word) : Prop :=
  0 ≤ pointer.toInt ∧ pointer.toInt < p.size

theorem Program.not_holds_iff {p : Program} {pointer : Word} :
    ¬p.Holds pointer ↔ p.fetch pointer = none := by
  rw [fetch_eq_none_iff, Holds]
  omega

theorem Program.holds_iff {p : Program} {pointer : Word} :
    p.Holds pointer ↔ ∃ i, p.fetch pointer = some i := by
  rw [← Option.ne_none_iff_exists', ne_eq, fetch_eq_none_iff, Holds]
  omega

namespace Machine

variable {p : Program} {c c' : Config} {m m' m₁ : Machine} {i : Instruction} {f : Fault}
  {es : List Moment} {r : Except RunError Outcome} {o : Outcome} {limit n : Nat}

/-! ### Counting to the limit -/

/-- The effect of an instruction does not count it. -/
theorem Effect.steps_eq (h : Effect p m i m₁) : m₁.steps = m.steps :=
  steps_of_execute h.execute_eq

/-- The counter does not pass the limit, unless it was past it at first. -/
theorem steps_le_of_turns (turns : Relation.ReflTransGen (Turn p c) m m') :
    m'.steps ≤ max m.steps c.bound := by
  refine turns_invariant (P := fun x => x.steps ≤ max m.steps c.bound) ?turn turns
    (Nat.le_max_left _ _)
  case turn =>
    intro x y _ turn
    have hcount : y.steps = x.steps + 1 := turn.steps_eq
    -- A turn that counts to the limit is the last one.
    have hwithin : x.steps < c.bound := turn.steps_lt
    show y.steps ≤ max m.steps c.bound
    omega

/-- The turn that ends a run counts one instruction at most, and only within the limit. -/
theorem Ends.steps_le (h : Ends p c m r m') : m'.steps ≤ max m.steps c.bound := by
  cases h with
  | halted | runoff | limit | fault => exact Nat.le_max_left _ _
  | @overflow i m₁ running fetched within effect next =>
    -- The last instruction was within the limit, and is counted.
    have hcount : m₁.steps = m.steps := effect.steps_eq
    show m₁.steps + 1 ≤ max m.steps c.bound
    omega

theorem le_steps_of_ends (h : Ends p c m r m') : m.steps ≤ m'.steps := by
  cases h with
  | halted | runoff | limit | fault => exact Nat.le_refl _
  | overflow _ _ _ effect _ => exact Nat.le_succ_of_le (Nat.le_of_eq effect.steps_eq.symm)

/-- **The counter of a finished run** does not pass the limit, unless it was past it at first. -/
theorem steps_run_le (p : Program) (c : Config) (m : Machine) :
    (m.run p c).machine.steps ≤ max m.steps c.bound := by
  obtain ⟨m₁, turns, ends⟩ := exists_turns_ends p c m
  have hturns : m₁.steps ≤ max m.steps c.bound := steps_le_of_turns turns
  have hends : (m.run p c).machine.steps ≤ max m₁.steps c.bound := ends.steps_le
  omega

/-- **No history is longer than what was left to the limit.** Every instruction takes one off
that, and so a jump back is no way to go on for ever. -/
theorem History.length_le (h : History p c m es m') : es.length ≤ c.bound - m.steps := by
  have hcount : m'.steps = m.steps + es.length := h.steps_eq
  have hlimit : m'.steps ≤ max m.steps c.bound := steps_le_of_turns h.turns
  omega

/-- At every point of a run from the start, the counter is the number of instructions that were
executed, and does not pass the limit. -/
theorem Point.steps_eq (h : Point p c {} es m) : m.steps = es.length ∧ m.steps ≤ c.bound := by
  cases h with
  | head history =>
    have hcount := history.steps_eq
    have hlimit := steps_le_of_turns history.turns
    change m.steps = 0 + es.length at hcount
    change m.steps ≤ max 0 c.bound at hlimit
    omega
  | @overflow es m m₁ i history running fetched within effect next =>
    -- The last instruction was within the limit, and is counted with the others.
    have hcount := history.steps_eq
    have hlast : m₁.steps = m.steps := effect.steps_eq
    change m.steps = 0 + es.length at hcount
    show m₁.steps + 1 = (es ++ [(⟨m, i⟩ : Moment)]).length ∧ m₁.steps + 1 ≤ c.bound
    rw [List.length_append, List.length_singleton]
    omega

/-! ### The result and the machine that is left -/

/-- **A result can be read off the machine that is left**: it is the one with which that machine
ends its own run, and ends it at once. -/
theorem result_eq_iff (hsize : p.size < Word.indexCount) :
    (m.run p c).result = r ↔ Ends p c (m.run p c).machine r (m.run p c).machine := by
  obtain ⟨m₁, -, ends⟩ := exists_turns_ends p c m
  have hagain := ends.again hsize
  constructor
  · rintro rfl
    -- The one direction: an end is final.
    exact hagain
  · intro h
    -- A machine has only one result.
    calc (m.run p c).result
        = ((m.run p c).machine.run p c).result := hagain.run_eq.1.symm
      _ = r := h.run_eq.1

/-- A machine ends with an output at once if it is halted. The output is its own. -/
theorem ends_self_halted_iff {text : String} :
    Ends p c m (.ok (.halted text)) m ↔ m.halted = true ∧ text = m.output := by
  constructor
  · intro h
    cases h with
    | halted halt => exact ⟨halt, rfl⟩
  · rintro ⟨halt, rfl⟩
    exact .halted halt

/-- A run that runs off without executing an instruction has none to execute. -/
theorem Ends.fetch_eq_none (h : Ends p c m (.ok .runoff) m') (hsteps : m'.steps = m.steps) :
    m.halted = false ∧ p.fetch m.pointer = none := by
  cases h with
  | runoff running fetched => exact ⟨running, fetched⟩
  | @overflow i m₁ running fetched within effect next =>
    -- The pointer went over the greatest word with an instruction that was counted.
    have hcount : m₁.steps = m.steps := effect.steps_eq
    have hsteps : m₁.steps + 1 = m.steps := hsteps
    omega

/-- A machine runs off at once if there is nothing at its pointer. -/
theorem ends_self_runoff_iff :
    Ends p c m (.ok .runoff) m ↔ m.halted = false ∧ ¬p.Holds m.pointer := by
  rw [Program.not_holds_iff]
  constructor
  · intro h
    exact h.fetch_eq_none rfl
  · rintro ⟨running, fetched⟩
    exact .runoff running fetched

/-- A run is given up at once if there is an instruction, and no step left for it. -/
theorem ends_self_stepLimit_iff :
    Ends p c m (.error (.stepLimit n)) m ↔
      m.halted = false ∧ p.Holds m.pointer ∧ c.bound ≤ m.steps ∧ n = c.bound := by
  rw [Program.holds_iff]
  constructor
  · intro h
    cases h with
    | limit running fetched reached => exact ⟨running, ⟨_, fetched⟩, reached, rfl⟩
  · rintro ⟨running, ⟨i, fetched⟩, reached, rfl⟩
    exact .limit running fetched reached

/-- A run fails at once if there is an instruction and a step left for it, and the instruction
fails. A failed instruction leaves the machine as it was, and so the machine is the same on both
sides. -/
theorem ends_self_fault_iff :
    Ends p c m (.error (.fault f)) m ↔
      m.halted = false ∧ m.steps < c.bound ∧
        ∃ i, p.fetch m.pointer = some i ∧ execute p i m = .error f m := by
  constructor
  · intro h
    cases h with
    | fault running fetched within meets =>
      exact ⟨running, within, _, fetched, meets.execute_eq⟩
  · rintro ⟨running, within, i, fetched, hexecute⟩
    obtain ⟨-, meets⟩ := execute_eq_error_iff.1 hexecute
    exact .fault running fetched within meets

/-- **The machine tells the result** of a run under the limit that has left it. For each result
there is one condition on the state, and every state meets exactly one of them. -/
structure Tells (p : Program) (limit : Nat) (m : Machine) (r : Except RunError Outcome) :
    Prop where
  /-- The machine is halted, and its output is the result. -/
  halted_iff : ∀ text, r = .ok (.halted text) ↔ m.halted = true ∧ text = m.output
  /-- The machine is not halted, and its pointer is outside the program. -/
  runoff_iff : r = .ok .runoff ↔ m.halted = false ∧ ¬p.Holds m.pointer
  /-- There is an instruction to be executed, and no step left for it. -/
  stepLimit_iff : ∀ n, r = .error (.stepLimit n) ↔
    m.halted = false ∧ p.Holds m.pointer ∧ limit ≤ m.steps ∧ n = limit
  /-- There is an instruction to be executed and a step left for it, and it fails in this way. -/
  fault_iff : ∀ f, r = .error (.fault f) ↔
    m.halted = false ∧ m.steps < limit ∧
      ∃ i, p.fetch m.pointer = some i ∧ execute p i m = .error f m

/-- **What a run leaves tells its result**, since the machine would end its own run with it. -/
theorem tells_run (hsize : p.size < Word.indexCount) (c : Config) (m : Machine) :
    Tells p c.bound (m.run p c).machine (m.run p c).result where
  halted_iff _ := (result_eq_iff hsize).trans ends_self_halted_iff
  runoff_iff := (result_eq_iff hsize).trans ends_self_runoff_iff
  stepLimit_iff _ := (result_eq_iff hsize).trans ends_self_stepLimit_iff
  fault_iff _ := (result_eq_iff hsize).trans ends_self_fault_iff

/-! ### Another limit -/

/-- A turn is one under every limit that allows its instruction. -/
theorem Turn.of_steps_le (h : Turn p c m m') (hle : m'.steps ≤ c'.bound) : Turn p c' m m' := by
  have hcount : m'.steps = m.steps + 1 := h.steps_eq
  cases h with
  | intro running fetched within effect next =>
    have hwithin : m.steps < c'.bound := by omega
    exact .intro running fetched hwithin effect next

/-- A chain of turns is one under every limit that allows its last instruction. -/
theorem turns_of_steps_le (turns : Relation.ReflTransGen (Turn p c) m m')
    (hle : m'.steps ≤ c'.bound) : Relation.ReflTransGen (Turn p c') m m' := by
  -- The last turn is allowed, and those before it have counted less.
  induction turns with
  | refl => exact .refl
  | @tail x y _ turn ih =>
    have hcount : y.steps = x.steps + 1 := turn.steps_eq
    have hbefore : x.steps ≤ c'.bound := by omega
    exact (ih hbefore).tail (turn.of_steps_le hle)

/-- An end with an outcome is one under every limit that allows what it has counted. -/
theorem Ends.of_steps_le (h : Ends p c m (.ok o) m') (hle : m'.steps ≤ c'.bound) :
    Ends p c' m (.ok o) m' := by
  cases h with
  | halted halt => exact .halted halt
  | runoff running fetched => exact .runoff running fetched
  | @overflow i m₁ running fetched within effect next =>
    have hcount : m₁.steps = m.steps := effect.steps_eq
    have hle : m₁.steps + 1 ≤ c'.bound := hle
    have hwithin : m.steps < c'.bound := by omega
    exact .overflow running fetched hwithin effect next

/-- **A limit that is high enough.** A run with an outcome has the same outcome, and leaves the
same machine, under every limit that allows the instructions that it has executed. -/
theorem run_eq_of_steps_le (hresult : (m.run p c).result = .ok o)
    (hle : (m.run p c).machine.steps ≤ c'.bound) :
    (m.run p c').result = .ok o ∧ (m.run p c').machine = (m.run p c).machine := by
  obtain ⟨m₁, turns, ends⟩ := exists_turns_ends p c m
  rw [hresult] at ends
  -- Up to the end, the run takes the same turns under the other limit.
  have hbefore : m₁.steps ≤ (m.run p c).machine.steps := le_steps_of_ends ends
  have turns' := turns_of_steps_le turns (Nat.le_trans hbefore hle)
  have ends' := ends.of_steps_le hle
  obtain ⟨hsame, hsame'⟩ := run_eq_of_turns turns'
  obtain ⟨hend, hend'⟩ := ends'.run_eq
  exact ⟨hsame.trans hend, hsame'.trans hend'⟩

/-- **A limit that is too low.** A run that has executed more instructions than another limit
allows is given up under that limit, wherever it would have ended. -/
theorem result_of_bound_lt (hstart : m.steps ≤ c'.bound)
    (hlt : c'.bound < (m.run p c).machine.steps) :
    (m.run p c').result = .error (.stepLimit c'.bound) := by
  have hcount : (m.run p c).machine.steps ≤ max m.steps c.bound := steps_run_le p c m
  have hle : c'.bound ≤ c.bound := by omega
  refine Decidable.byContradiction fun hne => ?_
  -- Otherwise the run would end in the same way under the higher limit, and has not counted
  -- so far.
  obtain ⟨m₁, turns, ends⟩ := exists_turns_ends p c' m
  have turns' := Relation.ReflTransGen.mono (fun _ _ turn => Turn.mono hle turn) _ _ turns
  have ends' := ends.mono hle hne
  have hsame : (m.run p c).machine = (m.run p c').machine :=
    (run_eq_of_turns turns').2.trans ends'.run_eq.2
  have hcount' : (m.run p c').machine.steps ≤ max m.steps c'.bound := steps_run_le p c' m
  rw [hsame] at hlt
  omega

/-! ### Runs under a given limit -/

/-- **The steps of a run are counted exactly**, when it starts on a machine that was just
switched on. -/
structure CountsExactly (p : Program) (c : Config) (limit : Nat) : Prop where
  /-- At every point of the run, the counter is the number of executed instructions, and does
  not pass the limit. -/
  point : ∀ {es m}, Point p c {} es m → m.steps = es.length ∧ m.steps ≤ limit
  /-- What the run leaves is one of its points. -/
  run_point : ∃ es, Point p c {} es (run p c {}).machine
  /-- A run that is given up has executed as many instructions as it may. -/
  steps_of_stepLimit : ∀ {n}, (run p c {}).result = .error (.stepLimit n) →
    (run p c {}).machine.steps = limit
  /-- A run that has an outcome has it under every limit that allows its instructions. -/
  enough : ∀ {o}, (run p c {}).result = .ok o → ∀ c' limit', c'.stepLimit = some limit' →
    (run p c {}).machine.steps ≤ limit' →
      (run p c' {}).result = .ok o ∧ (run p c' {}).machine = (run p c {}).machine
  /-- Under a limit that does not allow them it is given up, as every other run is. -/
  short : ∀ c' limit', c'.stepLimit = some limit' → limit' < (run p c {}).machine.steps →
    (run p c' {}).result = .error (.stepLimit limit')

theorem bound_eq (h : c.stepLimit = some limit) : c.bound = limit := by
  rw [Config.bound, h]
  rfl

theorem countsExactly (hlimit : c.stepLimit = some limit) : CountsExactly p c limit := by
  obtain rfl : c.bound = limit := bound_eq hlimit
  refine ⟨Point.steps_eq, exists_point_run p c {}, ?stepLimit, ?enough, ?short⟩
  case stepLimit =>
    intro n hresult
    obtain ⟨es, h⟩ := exists_point_run p c {}
    obtain ⟨m₁, -, ends⟩ := exists_turns_ends p c {}
    rw [hresult] at ends
    -- Only the limit ends a run with this error, and no point of the run is past it.
    generalize (run p c {}).machine = m' at h ends
    cases ends with
    | limit running fetched reached => exact Nat.le_antisymm h.steps_eq.2 reached
  case enough =>
    intro o hresult c' limit' hlimit' hle
    obtain rfl : c'.bound = limit' := bound_eq hlimit'
    exact run_eq_of_steps_le hresult hle
  case short =>
    intro c' limit' hlimit' hlt
    obtain rfl : c'.bound = limit' := bound_eq hlimit'
    exact result_of_bound_lt (Nat.zero_le _) hlt

/-- **How a run ends, and when.** Under a step limit, the run of a program that fits in memory
comes to an end after no more instructions than are left to the limit, from whatever machine it
starts, and the machine that it leaves tells its result. If it started on a machine that was just
switched on, then its steps are counted exactly. -/
theorem run_classified (hsize : p.size < Word.indexCount) (hlimit : c.stepLimit = some limit)
    (m : Machine) :
    (∀ es m₁, History p c m es m₁ → es.length ≤ limit - m.steps) ∧
      (∃ es m₁, History p c m es m₁ ∧
        Ends p c m₁ (m.run p c).result (m.run p c).machine) ∧
      Tells p limit (m.run p c).machine (m.run p c).result ∧ CountsExactly p c limit := by
  have hcount : CountsExactly p c limit := countsExactly hlimit
  obtain rfl : c.bound = limit := bound_eq hlimit
  exact ⟨fun _ _ h => h.length_le, exists_history_ends p c m, tells_run hsize c m, hcount⟩

/-- A run whose only instruction jumps to the greatest word, under a limit of one instruction: it
is counted, and runs off just before the limit would be noticed. -/
theorem run_classified_of_farJump :
    ∃ (p : Program) (c : Config) (limit : Nat),
      p = ⟨#[.jmp "far"], (∅ : Table).insert "far" Int64.maxValue⟩ ∧
      c = { stepLimit := some 1 } ∧ limit = 1 ∧
      p.size < Word.indexCount ∧ c.stepLimit = some limit ∧
      (run p c {}).result = .ok .runoff ∧ (run p c {}).machine.steps = limit ∧
      (∀ es m₁, History p c {} es m₁ → es.length ≤ limit - ({} : Machine).steps) ∧
      (∃ es m₁, History p c {} es m₁ ∧
        Ends p c m₁ (run p c {}).result (run p c {}).machine) ∧
      Tells p limit (run p c {}).machine (run p c {}).result ∧ CountsExactly p c limit := by
  refine ⟨_, _, _, rfl, rfl, rfl, ?size, rfl, ?result, ?steps, run_classified ?size rfl {}⟩
  case size => decide
  case result => decide +kernel
  case steps => decide +kernel

end Machine

end TinyAsm

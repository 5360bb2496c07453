import TinyAsm.Proofs.Machine.History

/-!
# The last writer wins

Every instruction writes at most one part of the state: a register, the compared pair, the
output, or where the run goes on. What stands in the first three of these during a run is
therefore what the last instruction that writes there has written, out of the values that it
found at its time.

* `Instruction.target?`, `Instruction.isCmp`, `Instruction.isMsg` — who writes what;
* `Moment.Stores`, `Moment.Compares`, `Moment.Prints` — what a moment writes;
* `LastWritten writes wrote x₀ es x` — in the moments `es` the last writer has written `x`, or
  nobody has written and `x` is still `x₀`.

One instruction is dealt with by a pair of lemmas for each part of the state: writers write
what they are said to write, and all others leave the part alone. `Point.lastWritten` goes from
there to whole runs, once for all parts, and `lastWriterWins` collects what comes of it.
-/

namespace TinyAsm

namespace Instruction

/-- The register that an instruction stores into. -/
def target? : Instruction → Option String
  | .mov target _ | .inc target | .dec target | .arith _ target _ => some target
  | .cmp .. | .jmp _ | .jumpIf .. | .call _ | .ret | .msg _ | .halt => none

/-- Whether an instruction sets the compared pair. -/
def isCmp : Instruction → Bool
  | .cmp .. => true
  | _ => false

/-- Whether an instruction sets the output. -/
def isMsg : Instruction → Bool
  | .msg _ => true
  | _ => false

end Instruction

namespace Machine

/-! ### What is written at a moment -/

/-- **The value that is computed** for the register that the instruction stores into, from what
the registers hold at that moment. -/
inductive Moment.Stores : Moment → Option Word → Prop where
  | mov {m : Machine} {target : String} {source : Operand} {y : Word}
      (hy : m.value source = .ok y) : Stores ⟨m, .mov target source⟩ (some y)
  | inc {m : Machine} {target : String} {x : Word} (hx : m.register target = .ok x) :
      Stores ⟨m, .inc target⟩ (some (x + 1))
  | dec {m : Machine} {target : String} {x : Word} (hx : m.register target = .ok x) :
      Stores ⟨m, .dec target⟩ (some (x - 1))
  | arith {m : Machine} {op : ArithOp} {target : String} {source : Operand} {x y z : Word}
      (hx : m.register target = .ok x) (hy : m.value source = .ok y)
      (hz : op.apply x y = .ok z) : Stores ⟨m, .arith op target source⟩ (some z)

/-- **The pair that is compared**: the values of the two operands at that moment. -/
inductive Moment.Compares : Moment → Option (Word × Word) → Prop where
  | cmp {m : Machine} {left right : Operand} {x y : Word} (hx : m.value left = .ok x)
      (hy : m.value right = .ok y) : Compares ⟨m, .cmp left right⟩ (some (x, y))

/-- **The text that is put out**: the parts of the message one after the other, each as it is
rendered at that moment. -/
inductive Moment.Prints : Moment → String → Prop where
  | msg {m : Machine} {parts : List MessagePart} {texts : List String}
      (ht : parts.mapM m.render = .ok texts) : Prints ⟨m, .msg parts⟩ (String.join texts)

/-- **What the last writer has written.** `writes` tells which instructions are writers, and
`wrote` what a moment has written; `x₀` is what stands there before anybody writes. -/
inductive LastWritten {α : Type} (writes : Instruction → Prop) (wrote : Moment → α → Prop)
    (x₀ : α) : List Moment → α → Prop where
  | unwritten {es : List Moment} (h : ∀ e ∈ es, ¬writes e.instruction) :
      LastWritten writes wrote x₀ es x₀
  | written {before after : List Moment} {e : Moment} {x : α} (hwrites : writes e.instruction)
      (hwrote : wrote e x) (hafter : ∀ e' ∈ after, ¬writes e'.instruction) :
      LastWritten writes wrote x₀ (before ++ e :: after) x

variable {p : Program} {c : Config} {m₀ m m₁ : Machine} {i : Instruction} {es : List Moment}
  {e : Moment} {name : String}

section LastWritten

variable {α : Type} {writes : Instruction → Prop} {wrote : Moment → α → Prop} {x₀ x x' : α}

/-- One more moment writes, or leaves alone what was written before. -/
theorem LastWritten.concat (h : LastWritten writes wrote x₀ es x)
    (hwrite : writes e.instruction → wrote e x') (hkeep : ¬writes e.instruction → x' = x) :
    LastWritten writes wrote x₀ (es ++ [e]) x' := by
  -- If the moment is that of a writer, then it is the last one.
  by_cases hwrites : writes e.instruction
  · exact .written hwrites (hwrite hwrites) (List.forall_mem_nil _)
  · have hlast : ∀ e' ∈ [e], ¬writes e'.instruction := List.forall_mem_singleton.2 hwrites
    rw [hkeep hwrites]
    cases h with
    | unwritten h => exact .unwritten (List.forall_mem_append.2 ⟨h, hlast⟩)
    | written hwrites' hwrote hafter =>
      -- The writer is the same as before, with one moment more after it.
      rw [List.append_assoc, List.cons_append]
      exact .written hwrites' hwrote (List.forall_mem_append.2 ⟨hafter, hlast⟩)

/-- **From instructions to runs.** A part of the state that writers write, and that every other
instruction leaves alone, is that of the last writer at every point of a run. -/
theorem Point.lastWritten (view : Machine → α)
    (hview : ∀ (m : Machine) steps pointer,
      view { m with steps := steps, pointer := pointer } = view m)
    (hwrite : ∀ {m m₁ : Machine} {i : Instruction}, Effect p m i m₁ → writes i →
      wrote ⟨m, i⟩ (view m₁))
    (hkeep : ∀ {m m₁ : Machine} {i : Instruction}, Effect p m i m₁ → ¬writes i →
      view m₁ = view m)
    (h : Point p c m₀ es m) : LastWritten writes wrote (view m₀) es (view m) := by
  refine Point.invariant (P := fun es m => LastWritten writes wrote (view m₀) es (view m))
    ?start ?effect h
  case start => exact .unwritten (List.forall_mem_nil _)
  case effect =>
    intro es m m₁ i h _ effect steps pointer
    -- The counter and the pointer are no part of what is written.
    rw [hview m₁ steps pointer]
    exact h.concat (hwrite effect) (hkeep effect)

end LastWritten

/-! ### One instruction -/

/-- A value that was computed is in the register that it was computed for. -/
theorem stores_of_effect (effect : Effect p m i m₁) (h : i.target? = some name) :
    Moment.Stores ⟨m, i⟩ m₁.registers[name]? := by
  have hstore (target : String) (y : Word) :
      (m.store target y).registers[target]? = some y :=
    Std.ExtTreeMap.getElem?_insert_self
  -- Only the first four instructions have a target, and each of them stores what `Stores` says.
  cases effect with
  | mov hy =>
    cases h
    rw [hstore]
    exact .mov hy
  | inc hx =>
    cases h
    rw [hstore]
    exact .inc hx
  | dec hx =>
    cases h
    rw [hstore]
    exact .dec hx
  | arith hx hy hz =>
    cases h
    rw [hstore]
    exact .arith hx hy hz
  | _ => contradiction

/-- Only the register that an instruction stores into changes. -/
theorem registers_of_effect (effect : Effect p m i m₁) (h : ¬i.target? = some name) :
    m₁.registers[name]? = m.registers[name]? := by
  -- Storing into another register leaves this one alone.
  have hstore {target : String} {y : Word} (hne : ¬some target = some name) :
      (m.store target y).registers[name]? = m.registers[name]? := by
    rw [store, Std.ExtTreeMap.getElem?_insert, if_neg]
    rw [Std.LawfulEqCmp.compare_eq_iff_eq]
    exact fun heq => hne (congrArg some heq)
  cases effect with
  | mov | inc | dec | arith => exact hstore h
  | _ => rfl

/-- A comparison keeps the pair that it is said to compare. -/
theorem compares_of_effect (effect : Effect p m i m₁) (h : i.isCmp = true) :
    Moment.Compares ⟨m, i⟩ m₁.comparison := by
  cases effect with
  | cmp hx hy => exact .cmp hx hy
  | _ => contradiction

/-- Only a comparison changes the compared pair. -/
theorem comparison_of_effect (effect : Effect p m i m₁) (h : ¬i.isCmp = true) :
    m₁.comparison = m.comparison := by
  cases effect with
  | cmp => exact absurd rfl h
  | _ => rfl

/-- A message puts out what it is said to print. -/
theorem prints_of_effect (effect : Effect p m i m₁) (h : i.isMsg = true) :
    Moment.Prints ⟨m, i⟩ m₁.output := by
  cases effect with
  | msg ht => exact .msg ht
  | _ => contradiction

/-- Only a message changes the output. -/
theorem output_of_effect (effect : Effect p m i m₁) (h : ¬i.isMsg = true) :
    m₁.output = m.output := by
  cases effect with
  | msg => exact absurd rfl h
  | _ => rfl

/-! ### Whole runs -/

/-- A register holds what was stored into it last. -/
theorem lastWritten_register (h : Point p c m₀ es m) (name : String) :
    LastWritten (·.target? = some name) Moment.Stores m₀.registers[name]? es
      m.registers[name]? :=
  h.lastWritten (fun m => m.registers[name]?) (fun _ _ _ => rfl) stores_of_effect
    registers_of_effect

/-- The compared pair is the one that was compared last. -/
theorem lastWritten_comparison (h : Point p c m₀ es m) :
    LastWritten (·.isCmp) Moment.Compares m₀.comparison es m.comparison :=
  h.lastWritten comparison (fun _ _ _ => rfl) compares_of_effect comparison_of_effect

/-- The output is the message that was printed last. -/
theorem lastWritten_output (h : Point p c m₀ es m) :
    LastWritten (·.isMsg) Moment.Prints m₀.output es m.output :=
  h.lastWritten output (fun _ _ _ => rfl) prints_of_effect output_of_effect

/-- All that was executed stands in the program, and was executed within the limit. -/
theorem History.forall_fetched (h : History p c m₀ es m) :
    ∀ e ∈ es, p.fetch e.pointer = some e.instruction ∧ e.machine.steps < c.bound := by
  induction h with
  | start => exact List.forall_mem_nil _
  | turn _ _ fetched within _ _ ih =>
    exact List.forall_mem_append.2 ⟨ih, List.forall_mem_singleton.2 ⟨fetched, within⟩⟩

/-- Each moment of a point was fetched at its pointer, within the limit. -/
theorem Point.forall_fetched (h : Point p c m₀ es m) :
    ∀ e ∈ es, p.fetch e.pointer = some e.instruction ∧ e.machine.steps < c.bound := by
  cases h with
  | head history => exact history.forall_fetched
  | overflow history _ fetched within _ _ =>
    -- The last instruction was fetched and counted as any other.
    exact List.forall_mem_append.2
      ⟨history.forall_fetched, List.forall_mem_singleton.2 ⟨fetched, within⟩⟩

/-- A run that ends with an outcome of a halted machine gives its output. -/
theorem output_of_result_eq_halted {output : String}
    (h : (m.run p c).result = .ok (.halted output)) : (m.run p c).machine.output = output := by
  obtain ⟨m₁, -, ends⟩ := exists_turns_ends p c m
  rw [h] at ends
  generalize (m.run p c).machine = m' at ends
  cases ends with
  | halted halt => rfl

/-- **In the runs of a program, the state is that of the last writers.** -/
structure LastWriterWins (p : Program) (c : Config) : Prop where
  /-- What a run leaves is one of its points, of which the other clauses speak. -/
  run_point : ∃ es, Point p c {} es (({} : Machine).run p c).machine
  /-- The output is the message that was put out last, with the values that the registers had
  at that moment. -/
  output : ∀ {es m}, Point p c {} es m → LastWritten (·.isMsg) Moment.Prints "" es m.output
  /-- The compared pair is that of the last comparison, whatever has become of the registers
  since. -/
  comparison : ∀ {es m}, Point p c {} es m →
    LastWritten (·.isCmp) Moment.Compares none es m.comparison
  /-- A register holds the value that was computed for it last, and nothing if there was none. -/
  register : ∀ {es m}, Point p c {} es m → ∀ name,
    LastWritten (·.target? = some name) Moment.Stores none es m.registers[name]?
  /-- Program and limit stay the same: whatever was executed stands in the program where it was
  fetched from, and was executed within the limit. -/
  executed : ∀ {es m}, Point p c {} es m → ∀ e ∈ es,
    p.fetch e.pointer = some e.instruction ∧ e.machine.steps < c.bound
  /-- So a run that halts gives the message that was put out last. -/
  halted : ∀ {text}, (({} : Machine).run p c).result = .ok (.halted text) →
    ∃ es, Point p c {} es (({} : Machine).run p c).machine ∧
      LastWritten (·.isMsg) Moment.Prints "" es text

/-- The last writer wins in the runs of every program, whatever its labels are. -/
theorem lastWriterWins (p : Program) (c : Config) : LastWriterWins p c where
  run_point := exists_point_run p c {}
  output := lastWritten_output
  comparison := lastWritten_comparison
  register := by
    intro es m h name
    have hregister := lastWritten_register h name
    rwa [Std.ExtTreeMap.getElem?_empty] at hregister
  executed := Point.forall_fetched
  halted := by
    intro text hresult
    obtain ⟨es, h⟩ := exists_point_run p c {}
    have houtput := lastWritten_output h
    -- The result of a halted run is the output of the machine that it leaves.
    rw [output_of_result_eq_halted hresult] at houtput
    exact ⟨es, h, houtput⟩

end Machine

end TinyAsm

import TinyAsm.Proofs.Machine.Calls
import TinyAsm.Proofs.Machine.LastWriter

/-!
# What a fault tells about its run

A fault names what an instruction did not find: a register, a label, a pair to compare, a place
to come back to. This module says what must have happened in the run, or rather what cannot have
happened, for the instruction not to find it.

* `Instruction.reads` and `Instruction.label?` — the registers that an instruction reads and the
  label that it goes to;
* `Justified p es m i f` — after the moments `es`, the fault `f` of the instruction `i` on the
  machine `m` is justified, with one constructor for each way to go wrong;
* `Justified.of_meets` — every fault that is met in a run is justified;
* `fault_justified` — so is the fault with which a run ends, and a program that declares all of
  its labels never ends with an unknown one.

What a register or the compared pair lacks is traced back through the run by
`TinyAsm.Proofs.Machine.LastWriter`, and what the stack lacks by `TinyAsm.Proofs.Machine.Calls`.
-/

namespace TinyAsm

/-! ### What an instruction asks for -/

/-- The register that is read for an operand. -/
def Operand.register? : Operand → Option String
  | .literal _ => none
  | .register name => some name

/-- The register that is read for a part of a message. -/
def MessagePart.register? : MessagePart → Option String
  | .text _ => none
  | .value operand => operand.register?

namespace Instruction

/-- The registers that an instruction reads. An operation in place reads its target, too. -/
def reads : Instruction → List String
  | .mov _ source => source.register?.toList
  | .inc target | .dec target => [target]
  | .arith _ target source => target :: source.register?.toList
  | .cmp left right => left.register?.toList ++ right.register?.toList
  | .msg parts => parts.filterMap MessagePart.register?
  | .jmp _ | .jumpIf .. | .call _ | .ret | .halt => []

/-- The label that an instruction goes to. -/
def label? : Instruction → Option String
  | .jmp label | .jumpIf _ label | .call label => some label
  | .mov .. | .inc _ | .dec _ | .arith .. | .cmp .. | .ret | .msg _ | .halt => none

end Instruction

/-- Every label that an instruction goes to is in the table. -/
def Program.LabelsDeclared (p : Program) : Prop :=
  ∀ i ∈ p.instructions, ∀ label ∈ i.label?, label ∈ p.labels

instance (p : Program) : Decidable p.LabelsDeclared :=
  inferInstanceAs (Decidable (∀ i ∈ p.instructions, ∀ label ∈ i.label?, label ∈ p.labels))

namespace Machine

/-- **Why an instruction may fail** on a machine that the moments `es` have led to. -/
inductive Justified (p : Program) (es : List Moment) (m : Machine) :
    Instruction → Fault → Prop where
  /-- A register is read that no executed instruction has stored into. -/
  | uninitialized {i : Instruction} {name : String} (hread : name ∈ i.reads)
      (hes : ∀ e ∈ es, e.instruction.target? ≠ some name) :
      Justified p es m i (.uninitialized name)
  | jmp {label : String} (hl : label ∉ p.labels) :
      Justified p es m (.jmp label) (.unknownLabel label)
  /-- A jump is taken, since the pair that was kept meets its condition. -/
  | jumpIf {condition : Condition} {label : String} {x y : Word}
      (hc : m.comparison = some (x, y)) (hh : condition.holds x y = true)
      (hl : label ∉ p.labels) : Justified p es m (.jumpIf condition label) (.unknownLabel label)
  | call {label : String} (hl : label ∉ p.labels) :
      Justified p es m (.call label) (.unknownLabel label)
  /-- A conditional jump is reached before any comparison was executed. -/
  | noComparison {condition : Condition} {label : String}
      (hes : ∀ e ∈ es, ¬e.instruction.isCmp = true) :
      Justified p es m (.jumpIf condition label) .noComparison
  /-- A return is reached when as many returns as calls were executed. -/
  | emptyStack (hes : es.countP Moment.isRet = es.countP Moment.isCall) :
      Justified p es m .ret .emptyStack
  /-- There is something to divide, and nothing to divide it by. -/
  | divisionByZero {target : String} {source : Operand} {x : Word}
      (hx : m.registers[target]? = some x) (hy : m.value source = .ok 0) :
      Justified p es m (.arith .div target source) .divisionByZero

variable {p : Program} {c : Config} {m : Machine} {i : Instruction} {f : Fault}
  {es : List Moment} {name label : String} {o : Operand}

/-! ### Traces of what is missing -/

/-- A register without a value has had no writer. -/
theorem target?_ne_of_register_eq_none (h : Point p c {} es m)
    (hname : m.registers[name]? = none) : ∀ e ∈ es, e.instruction.target? ≠ some name := by
  have hlast := lastWritten_register h name
  rw [hname] at hlast
  -- What a writer has stored is a value.
  cases hlast with
  | unwritten hes => exact hes
  | written _ hstores _ => exact nomatch hstores

/-- Without a pair to compare there has been no comparison. -/
theorem isCmp_eq_false_of_comparison_eq_none (h : Point p c {} es m)
    (hc : m.comparison = none) : ∀ e ∈ es, ¬e.instruction.isCmp = true := by
  have hlast := lastWritten_comparison h
  rw [hc] at hlast
  cases hlast with
  | unwritten hes => exact hes
  | written _ hcompares _ => exact nomatch hcompares

theorem register_eq_ok_iff {x : Word} :
    m.register name = .ok x ↔ m.registers[name]? = some x := by
  unfold register
  cases m.registers[name]? <;> simp

theorem compared_eq_ok_iff {pair : Word × Word} :
    m.compared = .ok pair ↔ m.comparison = some pair := by
  unfold compared
  cases m.comparison <;> simp

theorem notMem_of_position_eq_error (h : p.position label = .error f) :
    label ∉ p.labels ∧ f = .unknownLabel label := by
  obtain ⟨hl, hf⟩ := position_eq_error_iff.1 h
  exact ⟨(getElem?_eq_none_iff _ _).1 hl, hf⟩

/-! ### Faults in a run -/

/-- A register that is read and has no value was never stored into. -/
theorem Justified.of_register (h : Point p c {} es m) (hread : name ∈ i.reads)
    (hx : m.register name = .error f) : Justified p es m i f := by
  obtain ⟨hname, rfl⟩ := register_eq_error_iff.1 hx
  exact .uninitialized hread (target?_ne_of_register_eq_none h hname)

/-- An operand that cannot be read is a register that was never stored into. -/
theorem Justified.of_value (h : Point p c {} es m) (hread : ∀ name ∈ o.register?, name ∈ i.reads)
    (hy : m.value o = .error f) : Justified p es m i f := by
  obtain ⟨name, rfl, hx⟩ := value_eq_error_iff.1 hy
  exact .of_register h (hread name rfl) hx

/-- **Every fault that is met in a run is justified.** -/
theorem Justified.of_meets (h : Point p c {} es m) (meets : Meets p m i f) :
    Justified p es m i f := by
  -- One case for each read that can fail. Those of registers are all alike, and differ in why the
  -- register is among those that the instruction reads.
  cases meets with
  | mov hy => exact .of_value h (fun _ hname => Option.mem_toList.2 hname) hy
  | inc hx | dec hx | arithTarget hx => exact .of_register h List.mem_cons_self hx
  | arithSource _ hy =>
    exact .of_value h (fun _ hname => List.mem_cons_of_mem _ (Option.mem_toList.2 hname)) hy
  | arithApply hx hy hz =>
    -- Division is the only operation that can fail when both operands have been read.
    obtain ⟨rfl, rfl, rfl⟩ := apply_eq_error_iff.1 hz
    exact .divisionByZero (register_eq_ok_iff.1 hx) hy
  | cmpLeft hx =>
    exact .of_value h (fun _ hname => List.mem_append_left _ (Option.mem_toList.2 hname)) hx
  | cmpRight _ hy =>
    exact .of_value h (fun _ hname => List.mem_append_right _ (Option.mem_toList.2 hname)) hy
  | jmp hl =>
    obtain ⟨hlabel, rfl⟩ := notMem_of_position_eq_error hl
    exact .jmp hlabel
  | jumpCompared hc =>
    obtain ⟨hnone, rfl⟩ := compared_eq_error_iff.1 hc
    exact .noComparison (isCmp_eq_false_of_comparison_eq_none h hnone)
  | jumpLabel hc hh hl =>
    obtain ⟨hlabel, rfl⟩ := notMem_of_position_eq_error hl
    exact .jumpIf (compared_eq_ok_iff.1 hc) hh hlabel
  | call hl =>
    obtain ⟨hlabel, rfl⟩ := notMem_of_position_eq_error hl
    exact .call hlabel
  | ret hs =>
    -- The stack is as deep as more calls than returns were executed, and here it is empty.
    have hdepth := length_stack_of_point h
    rw [hs, List.length_nil, Nat.zero_add] at hdepth
    exact .emptyStack hdepth
  | msg ht =>
    obtain ⟨part, hpart, hrender⟩ := Except.exists_of_mapM_eq_error ht
    obtain ⟨o, rfl, hy⟩ := render_eq_error_iff.1 hrender
    exact .of_value h (fun _ hname => List.mem_filterMap.2 ⟨.value o, hpart, hname⟩) hy

/-- A label that is unknown is one that the failing instruction goes to. -/
theorem Justified.label?_eq (h : Justified p es m i (.unknownLabel label)) :
    i.label? = some label ∧ label ∉ p.labels := by
  cases h with
  | jmp hl | jumpIf _ _ hl | call hl => exact ⟨rfl, hl⟩

/-- In a program that declares its labels, this justifies no unknown label. -/
theorem Justified.ne_unknownLabel (h : Justified p es m i f) (hi : p.fetch m.pointer = some i)
    (hp : p.LabelsDeclared) (label : String) : f ≠ .unknownLabel label := by
  rintro rfl
  obtain ⟨hlabel, hnot⟩ := h.label?_eq
  obtain ⟨n, -, hn⟩ := Program.fetch_eq_some_iff.1 hi
  exact hnot (hp i (Array.mem_of_getElem? hn) label hlabel)

/-- **A fault is justified by the run that led to it.** If a run ends with a fault, then it has
stopped at an instruction of the program, and whatever the run has executed until then justifies
that this instruction fails in this way. So if every label that is gone to is in the table, no
run ends with an unknown label, under whatever limit. -/
theorem fault_justified (hresult : (run p c {}).result = .error (.fault f)) :
    ∃ i, p.fetch (run p c {}).machine.pointer = some i ∧
      (∃ es, History p c {} es (run p c {}).machine) ∧
      (∀ es, History p c {} es (run p c {}).machine →
        Justified p es (run p c {}).machine i f) ∧
      (p.LabelsDeclared → ∀ label, f ≠ .unknownLabel label) := by
  obtain ⟨es, m, history, ends⟩ := exists_history_ends p c {}
  rw [hresult] at ends
  generalize (run p c {}).machine = m' at ends
  -- No other end has a fault for its result, and this one leaves the machine as it was.
  cases ends with
  | fault running fetched within meets =>
    refine ⟨_, fetched, ⟨es, history⟩, ?justified, ?declared⟩
    case justified =>
      intro es history
      exact .of_meets (.head history) meets
    case declared =>
      intro hp
      exact (Justified.of_meets (.head history) meets).ne_unknownLabel fetched hp

/-- A run that returns from a call, and then once more. -/
theorem fault_justified_of_ret :
    ∃ p c f, p = ⟨#[.call "f", .ret], (∅ : Table).insert "f" 0⟩ ∧ c = {} ∧
      f = .emptyStack ∧ (run p c {}).result = .error (.fault f) ∧ p.LabelsDeclared ∧
      ∃ i, p.fetch (run p c {}).machine.pointer = some i ∧
        (∃ es, History p c {} es (run p c {}).machine) ∧
        (∀ es, History p c {} es (run p c {}).machine →
          Justified p es (run p c {}).machine i f) ∧
        (p.LabelsDeclared → ∀ label, f ≠ .unknownLabel label) := by
  refine ⟨_, _, _, rfl, rfl, rfl, ?result, ?declared, fault_justified ?result⟩
  case result => decide +kernel
  case declared => decide +kernel

end Machine

end TinyAsm

import Mathlib.Data.List.Nodup
import Mathlib.Logic.Equiv.Basic
import TinyAsm.Proofs.Except
import TinyAsm.Proofs.Machine.Turn
import TinyAsm.Proofs.Program.Labels

/-!
# Names carry no meaning

A machine looks registers and labels up by their names and does nothing else with them. So if
the registers and the labels of a program get other names, two of them never the same, its run
stays what it was, up to the names.

* `Renaming` — new names for registers and labels, each of them injective;
* `Table.rename f t` — the table `t` with the names replaced (`Table.getElem?_rename`,
  `Table.rename_insert`);
* `Effect.rename` and `Meets.rename` — a renamed instruction does, or fails to do, on a renamed
  machine what the instruction did on the machine;
* `run_rename` — the run of a renamed program is the renamed run.

Renaming is the same for all programs: no name is left alone, not even an empty one or one that
reads as a literal, and registers and labels may share names before as well as after.
-/

namespace TinyAsm

/-! ### Tables -/

namespace Table

variable {f : String → String} {t : Table} {name key : String} {value : Word}

/-- The table with other names for its entries. -/
def rename (f : String → String) (t : Table) : Table :=
  Std.ExtTreeMap.ofList (t.toList.map fun e => (f e.1, e.2)) compare

/-- An entry of the renamed table is a renamed entry. -/
theorem getElem?_rename_eq_some_iff (hf : Function.Injective f) :
    (t.rename f)[key]? = some value ↔ ∃ name, f name = key ∧ t[name]? = some value := by
  have hkeys : ((t.toList.map fun e => (f e.1, e.2)).reverse.map Prod.fst).Nodup := by
    -- The names of a table are distinct, and so are the new ones.
    have hnodup : (t.toList.map Prod.fst).Nodup := by
      rw [Std.ExtTreeMap.map_fst_toList_eq_keys]
      exact Std.ExtTreeMap.nodup_keys
    have hnames : (t.toList.map fun e => (f e.1, e.2)).map Prod.fst =
        (t.toList.map Prod.fst).map f := by
      rw [List.map_map, List.map_map]
      rfl
    rw [List.map_reverse, (List.reverse_perm _).nodup_iff, hnames]
    exact hnodup.map hf
  rw [rename, getElem?_ofList, lookup_eq_some_iff_mem hkeys, List.mem_reverse, List.mem_map]
  constructor
  · rintro ⟨e, he, heq⟩
    cases heq
    exact ⟨e.1, rfl, Std.ExtTreeMap.mem_toList_iff_getElem?_eq_some.1 he⟩
  · rintro ⟨name, rfl, hname⟩
    exact ⟨(name, value), Std.ExtTreeMap.mem_toList_iff_getElem?_eq_some.2 hname, rfl⟩

/-- **What was under the old name** is under the new one. -/
theorem getElem?_rename (hf : Function.Injective f) (t : Table) (name : String) :
    (t.rename f)[f name]? = t[name]? := by
  ext value
  rw [getElem?_rename_eq_some_iff hf]
  constructor
  · rintro ⟨name', hname', hvalue⟩
    rwa [← hf hname']
  · intro hvalue
    exact ⟨name, rfl, hvalue⟩

theorem rename_empty (f : String → String) : rename f ∅ = ∅ := rfl

/-- **An entry is put in under its new name.** It overwrites the one entry that it has overwritten
before, since no other name has become the same. -/
theorem rename_insert (hf : Function.Injective f) (t : Table) (name : String) (value : Word) :
    rename f (t.insert name value) = (t.rename f).insert (f name) value := by
  ext key value'
  rw [getElem?_rename_eq_some_iff hf, Std.ExtTreeMap.getElem?_insert]
  simp only [Std.ExtTreeMap.getElem?_insert, Std.LawfulEqCmp.compare_eq_iff_eq]
  -- Only one old name has become `key`, if any: `hf` says so in either case.
  by_cases hkey : f name = key
  · -- The entry that was put in is found under its new name, and no other one is there.
    rw [if_pos hkey]
    constructor
    · rintro ⟨name', hname', hvalue⟩
      rwa [if_pos (hf (hkey.trans hname'.symm))] at hvalue
    · intro hvalue
      exact ⟨name, hkey, by rwa [if_pos rfl]⟩
  · rw [if_neg hkey, getElem?_rename_eq_some_iff hf]
    have hne {name' : String} (hname' : f name' = key) : name ≠ name' := by
      rintro rfl
      exact hkey hname'
    constructor
    · rintro ⟨name', hname', hvalue⟩
      rw [if_neg (hne hname')] at hvalue
      exact ⟨name', hname', hvalue⟩
    · rintro ⟨name', hname', hvalue⟩
      exact ⟨name', hname', by rwa [if_neg (hne hname')]⟩

end Table

/-! ### Programs -/

/-- **New names** for registers and for labels. Different names stay different. -/
structure Renaming where
  register : String → String
  label : String → String
  register_injective : Function.Injective register
  label_injective : Function.Injective label

/-- The operand with its register renamed. -/
def Operand.rename (ρ : Renaming) : Operand → Operand
  | .literal value => .literal value
  | .register name => .register (ρ.register name)

/-- The part of a message with its register renamed. Fixed text stays. -/
def MessagePart.rename (ρ : Renaming) : MessagePart → MessagePart
  | .text content => .text content
  | .value operand => .value (operand.rename ρ)

/-- The instruction with all of its registers and labels renamed. -/
def Instruction.rename (ρ : Renaming) : Instruction → Instruction
  | .mov target source => .mov (ρ.register target) (source.rename ρ)
  | .inc target => .inc (ρ.register target)
  | .dec target => .dec (ρ.register target)
  | .arith op target source => .arith op (ρ.register target) (source.rename ρ)
  | .cmp left right => .cmp (left.rename ρ) (right.rename ρ)
  | .jmp label => .jmp (ρ.label label)
  | .jumpIf condition label => .jumpIf condition (ρ.label label)
  | .call label => .call (ρ.label label)
  | .ret => .ret
  | .msg parts => .msg (parts.map (MessagePart.rename ρ))
  | .halt => .halt

/-- The program with all of its registers and labels renamed. -/
def Program.rename (ρ : Renaming) (p : Program) : Program where
  instructions := p.instructions.map (Instruction.rename ρ)
  labels := p.labels.rename ρ.label

/-- The fault with the name in it renamed. -/
def Fault.rename (ρ : Renaming) : Fault → Fault
  | .uninitialized register => .uninitialized (ρ.register register)
  | .unknownLabel label => .unknownLabel (ρ.label label)
  | .emptyStack => .emptyStack
  | .divisionByZero => .divisionByZero
  | .noComparison => .noComparison

/-- The error with the name in it renamed. -/
def RunError.rename (ρ : Renaming) : RunError → RunError
  | .stepLimit limit => .stepLimit limit
  | .fault f => .fault (f.rename ρ)

/-- What is fetched is the renamed instruction, from the same place. -/
theorem Program.fetch_rename (ρ : Renaming) (p : Program) (pointer : Word) :
    (p.rename ρ).fetch pointer = (p.fetch pointer).map (Instruction.rename ρ) := by
  unfold fetch
  cases pointer.index? with
  | none => rfl
  | some n => exact Array.getElem?_map

/-- A label marks the same place under its new name, or is unknown under it. -/
theorem Program.position_rename (ρ : Renaming) {p : Program} {label : String}
    {r : Except Fault Word} (h : p.position label = r) :
    (p.rename ρ).position (ρ.label label) = r.mapError (Fault.rename ρ) := by
  rw [← h]
  unfold position
  rw [rename, Table.getElem?_rename ρ.label_injective]
  cases p.labels[label]? with
  | none => rfl
  | some position => rfl

/-- An operation on values meets no fault that has a name in it. -/
theorem ArithOp.apply_rename (ρ : Renaming) {op : ArithOp} {x y : Word}
    {r : Except Fault Word} (h : op.apply x y = r) :
    op.apply x y = r.mapError (Fault.rename ρ) := by
  rw [← h]
  unfold apply
  cases op with
  | add | sub | mul => rfl
  | div =>
    cases Word.floorDiv? x y with
    | none => rfl
    | some q => rfl

namespace Machine

/-! ### What a renamed machine holds -/

/-- The machine with its registers renamed. Nothing else in it has a name. -/
def rename (ρ : Renaming) (m : Machine) : Machine :=
  { m with registers := m.registers.rename ρ.register }

variable {ρ : Renaming} {p : Program} {c : Config} {m m₁ : Machine} {i : Instruction} {f : Fault}

theorem rename_store (ρ : Renaming) (m : Machine) (name : String) (value : Word) :
    (m.store name value).rename ρ = (m.rename ρ).store (ρ.register name) value := by
  rw [rename, store, Table.rename_insert ρ.register_injective]
  rfl

/-- A register is read under its new name, or found to have no value under it. -/
theorem register_rename (ρ : Renaming) {name : String} {r : Except Fault Word}
    (h : m.register name = r) :
    (m.rename ρ).register (ρ.register name) = r.mapError (Fault.rename ρ) := by
  rw [← h]
  unfold register
  rw [rename, Table.getElem?_rename ρ.register_injective]
  cases m.registers[name]? with
  | none => rfl
  | some value => rfl

theorem value_rename (ρ : Renaming) {o : Operand} {r : Except Fault Word} (h : m.value o = r) :
    (m.rename ρ).value (o.rename ρ) = r.mapError (Fault.rename ρ) := by
  cases o with
  | literal value =>
    rw [← h]
    rfl
  | register name => exact register_rename ρ h

theorem compared_rename (ρ : Renaming) {r : Except Fault (Word × Word)} (h : m.compared = r) :
    (m.rename ρ).compared = r.mapError (Fault.rename ρ) := by
  rw [← h]
  unfold compared
  rw [rename]
  cases m.comparison with
  | none => rfl
  | some pair => rfl

/-- A part of a message is rendered as the same text: values are, and not the names that held
them. -/
theorem render_rename (ρ : Renaming) (m : Machine) (part : MessagePart) :
    (m.rename ρ).render (part.rename ρ) = (m.render part).mapError (Fault.rename ρ) := by
  cases part with
  | text content => rfl
  | value o =>
    change Decimal.ofWord <$> (m.rename ρ).value (o.rename ρ) =
      (Decimal.ofWord <$> m.value o).mapError (Fault.rename ρ)
    rw [value_rename ρ rfl]
    cases m.value o with
    | ok x => rfl
    | error f => rfl

theorem mapM_render_rename (ρ : Renaming) {parts : List MessagePart}
    {r : Except Fault (List String)} (h : parts.mapM m.render = r) :
    (parts.map (MessagePart.rename ρ)).mapM (m.rename ρ).render =
      r.mapError (Fault.rename ρ) := by
  rw [← h]
  clear h
  induction parts with
  | nil => rfl
  | cons part parts ih =>
    rw [List.map_cons, List.mapM_cons, List.mapM_cons, render_rename, ih]
    -- The first part that fails decides, under either names.
    cases m.render part with
    | error f => rfl
    | ok text =>
      cases parts.mapM m.render with
      | error f => rfl
      | ok texts => rfl

/-! ### One instruction -/

/-- **A renamed instruction does the same**, up to the names. -/
theorem Effect.rename (ρ : Renaming) (h : Effect p m i m₁) :
    Effect (p.rename ρ) (m.rename ρ) (i.rename ρ) (m₁.rename ρ) := by
  -- Every read of the effect succeeds under the new names, with the same value.
  cases h with
  | mov hy =>
    rw [rename_store]
    exact .mov (value_rename ρ hy)
  | inc hx =>
    rw [rename_store]
    exact .inc (register_rename ρ hx)
  | dec hx =>
    rw [rename_store]
    exact .dec (register_rename ρ hx)
  | arith hx hy hz =>
    rw [rename_store]
    exact .arith (register_rename ρ hx) (value_rename ρ hy) hz
  | cmp hx hy => exact .cmp (value_rename ρ hx) (value_rename ρ hy)
  | jmp hl => exact .jmp (Program.position_rename ρ hl)
  | taken hc hh hl => exact .taken (compared_rename ρ hc) hh (Program.position_rename ρ hl)
  | untaken hc hh => exact .untaken (compared_rename ρ hc) hh
  | call hl => exact .call (Program.position_rename ρ hl)
  | ret hs => exact .ret hs
  | msg ht => exact .msg (mapM_render_rename ρ ht)
  | halt => exact .halt

/-- **A renamed instruction fails for the same reason**, up to the names. -/
theorem Meets.rename (ρ : Renaming) (h : Meets p m i f) :
    Meets (p.rename ρ) (m.rename ρ) (i.rename ρ) (f.rename ρ) := by
  -- The read that fails still fails, and reports the new name; those before it succeed.
  cases h with
  | mov hy => exact .mov (value_rename ρ hy)
  | inc hx => exact .inc (register_rename ρ hx)
  | dec hx => exact .dec (register_rename ρ hx)
  | arithTarget hx => exact .arithTarget (register_rename ρ hx)
  | arithSource hx hy => exact .arithSource (register_rename ρ hx) (value_rename ρ hy)
  | arithApply hx hy hz =>
    exact .arithApply (register_rename ρ hx) (value_rename ρ hy) (ArithOp.apply_rename ρ hz)
  | cmpLeft hx => exact .cmpLeft (value_rename ρ hx)
  | cmpRight hx hy => exact .cmpRight (value_rename ρ hx) (value_rename ρ hy)
  | jmp hl => exact .jmp (Program.position_rename ρ hl)
  | jumpCompared hc => exact .jumpCompared (compared_rename ρ hc)
  | jumpLabel hc hh hl =>
    exact .jumpLabel (compared_rename ρ hc) hh (Program.position_rename ρ hl)
  | call hl => exact .call (Program.position_rename ρ hl)
  | ret hs => exact .ret hs
  | msg ht => exact .msg (mapM_render_rename ρ ht)

/-! ### Runs -/

/-- The cycle with all that comes of it renamed. -/
def Cycle.rename (ρ : Renaming) : Cycle → Cycle
  | .next m => .next (m.rename ρ)
  | .stop result m => .stop (result.mapError (RunError.rename ρ)) (m.rename ρ)

/-- **A renamed cycle does the same**, up to the names. -/
theorem cycle_rename (ρ : Renaming) (p : Program) (i : Instruction) (m : Machine) :
    (m.rename ρ).cycle (p.rename ρ) (i.rename ρ) = (m.cycle p i).rename ρ := by
  cases hx : execute p i m with
  -- One step lemma for each of the two ways to go on: `Meets.rename` and then `Effect.rename`.
  | error f m₁ =>
    obtain ⟨-, meets⟩ := execute_eq_error_iff.1 hx
    rw [cycle_of_meets meets, cycle_of_meets (meets.rename ρ)]
    rfl
  | ok u m₁ =>
    have effect : Effect p m i m₁ := execute_eq_ok_iff.1 hx
    -- The pointer has been moved to the same place, with or without a next one.
    cases next : m₁.pointer.next? with
    | some pointer =>
      rw [cycle_of_effect effect next, cycle_of_effect (effect.rename ρ) next]
      rfl
    | none =>
      rw [cycle_of_effect_of_next?_eq_none effect next,
        cycle_of_effect_of_next?_eq_none (effect.rename ρ) next]
      rfl

end Machine

/-- The turn of a trace with its instruction renamed. -/
def TraceEntry.rename (ρ : Renaming) (e : TraceEntry) : TraceEntry :=
  { e with instruction := e.instruction.rename ρ }

/-- The run with the names in its result, on its machine and in its trace renamed. -/
def Run.rename (ρ : Renaming) (r : Run) : Run where
  result := r.result.mapError (RunError.rename ρ)
  machine := r.machine.rename ρ
  trace := r.trace.map (TraceEntry.rename ρ)

namespace Machine

theorem record_rename (ρ : Renaming) (c : Config) (m : Machine) (i : Instruction) :
    (m.rename ρ).record c (i.rename ρ) [] = (m.record c i []).map (TraceEntry.rename ρ) := by
  unfold record
  split
  · rfl
  · rfl

/-- **Runs from any machine** stay the same, up to the names. -/
theorem run_rename_machine (ρ : Renaming) (p : Program) (c : Config) (m : Machine) :
    (m.rename ρ).run (p.rename ρ) c = (m.run p c).rename ρ := by
  -- Every turn takes one off the instructions that are left to the limit.
  induction hn : c.bound - m.steps using Nat.strongRecOn generalizing m with
  | ind n ih =>
    -- None of the questions that a turn asks is about a name.
    have hfetch := Program.fetch_rename ρ p m.pointer
    have hcycle (i : Instruction) := cycle_rename ρ p i m
    cases running : m.halted with
    | true =>
      have running' : (m.rename ρ).halted = true := running
      rw [run_of_halted running, run_of_halted running']
      rfl
    | false =>
      have running' : (m.rename ρ).halted = false := running
      cases fetched : p.fetch m.pointer with
      | none =>
        rw [fetched] at hfetch
        rw [run_of_fetch_eq_none running fetched, run_of_fetch_eq_none running' hfetch]
        rfl
      | some i =>
        rw [fetched] at hfetch
        rcases Nat.lt_or_ge m.steps c.bound with within | reached
        · cases hc : m.cycle p i with
          | next m' =>
            have hc' := hcycle i
            rw [hc] at hc'
            -- The rest of the run has one instruction less to go.
            have hs := steps_of_cycle hc
            have hrest := ih (c.bound - m'.steps) (by omega) m' rfl
            rw [run_of_cycle_eq_next running fetched within hc,
              run_of_cycle_eq_next running' hfetch within hc', hrest, record_rename]
            unfold Run.rename
            rw [List.map_append]
          | stop result m' =>
            have hc' := hcycle i
            rw [hc] at hc'
            rw [run_of_cycle_eq_stop running fetched within hc,
              run_of_cycle_eq_stop running' hfetch within hc', record_rename]
            rfl
        · rw [run_of_bound_le running fetched reached, run_of_bound_le running' hfetch reached]
          rfl

/-- **Names carry no meaning.** The run of a renamed program, on a machine that was just switched
on, is the run of the program with the names replaced: the same result up to the name in a
fault, the same machine up to the names of its registers, and the same trace up to the names in
its instructions. A register has under its new name what it had under the old one, and there are
no other registers. -/
theorem run_rename (ρ : Renaming) (p : Program) (c : Config) :
    run (p.rename ρ) c {} = (run p c {}).rename ρ ∧
      ∀ (key : String) (value : Word),
        (run (p.rename ρ) c {}).machine.registers[key]? = some value ↔
          ∃ name, ρ.register name = key ∧ (run p c {}).machine.registers[name]? = some value := by
  -- A machine that was just switched on holds no names.
  have hstart : ({} : Machine).rename ρ = {} := by
    rw [rename, Table.rename_empty]
  have hrun : run (p.rename ρ) c {} = (run p c {}).rename ρ := by
    conv => lhs; rw [← hstart]
    exact run_rename_machine ρ p c {}
  refine ⟨hrun, fun key value => ?_⟩
  rw [hrun]
  exact Table.getElem?_rename_eq_some_iff ρ.register_injective

/-- Registers and labels change places with names that could cause trouble: no name at all, and
one that reads as a literal. -/
def awkwardNames : Renaming where
  register := Equiv.swap "a" ""
  label := Equiv.swap "a" "5"
  register_injective := Equiv.injective _
  label_injective := Equiv.injective _

/-- A program with one name for a register and a label, which fails at a register that has none. -/
def sharedName : Program where
  instructions := #[.mov "a" (.literal 1), .cmp (.register "a") (.literal 2),
    .jumpIf .lt "a", .halt, .msg [.value (.register "")]]
  labels := (∅ : Table).insert "a" 3

/-- The renamed program takes the jump as well, and fails at the new name of the register. -/
theorem run_rename_sharedName :
    (Function.Injective awkwardNames.register ∧ Function.Injective awkwardNames.label) ∧
      run (sharedName.rename awkwardNames) {} {} = (run sharedName {} {}).rename awkwardNames ∧
      (run sharedName {} {}).result = .error (.fault (.uninitialized "")) ∧
      (run (sharedName.rename awkwardNames) {} {}).result = .error (.fault (.uninitialized "a")) ∧
      (run (sharedName.rename awkwardNames) {} {}).machine.registers[""]? = some 1 := by
  obtain ⟨hrun, hregisters⟩ := run_rename awkwardNames sharedName {}
  have hresult : (run sharedName {} {}).result = .error (.fault (.uninitialized "")) := by
    decide +kernel
  refine ⟨⟨awkwardNames.register_injective, awkwardNames.label_injective⟩, hrun, hresult, ?_, ?_⟩
  · -- The result is the old one with the name in it replaced.
    rw [hrun, Run.rename, hresult]
    decide +kernel
  · -- What `a` held is found under no name at all.
    refine (hregisters "" 1).2 ⟨"a", ?_, ?_⟩
    · exact Equiv.swap_apply_left "a" ""
    · decide +kernel

end Machine

end TinyAsm

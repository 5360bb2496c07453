import TinyAsm.Proofs.Except
import TinyAsm.Proofs.Machine.Turn
import TinyAsm.Proofs.Walk.Basic

/-!
# Assembling a text keeps its meaning

The machine that runs an assembled program follows the walker through the lines of the
text. `Walker.machine` is the machine that stands where a walker stands: its pointer is the
index of the walker's line among the instructions, and every line to come back to is kept as
the index just before it, which is where the call was.

* `effect_of_perform` and `meets_of_perform` — what an instruction does to the walker, and
  why it cannot be performed, is what it does to the machine;
* `stutter_or_turn` and `ends_of_turn` — a turn of the walk is a turn of the machine, except
  that the machine stands still while the walker passes a label;
* `run_machine` — a whole walk and the run of the machine come to the same.

Label positions are off by one, and so are the places kept by calls; both are made up for by
the step forward that follows every instruction. In terms of `Word.before`, the pointer is
the word before the *next* index, and a jump to the word before an index is followed by a
step to the index itself.
-/

namespace TinyAsm

namespace Walker

open Line (index)
open Program (MadeOf)

/-- **The machine that stands where a walker stands.** -/
def machine (lines : List Line) (w : Walker) : Machine where
  registers := w.registers
  comparison := w.comparison
  stack := w.returns.map fun position => Word.before (index lines position)
  pointer := Word.before (index lines w.position + 1)
  halted := w.halted
  output := w.output
  steps := w.steps

/-! ### Reading -/

section Reading

variable (lines : List Line) (w : Walker)

/-- The machine has the registers of the walker, and so operands have the same values. -/
@[simp] theorem machine_value (o : Operand) : (w.machine lines).value o = w.value o := by
  cases o with
  | literal value => rfl
  | register name => rfl

theorem machine_render : (w.machine lines).render = w.spell := by
  funext part
  cases part with
  | text content => rfl
  | value operand => simp [Machine.render, spell]

end Reading

variable {lines : List Line} {p : Program} {w w' : Walker} {line : Line} {i : Instruction}
  {f : Fault} {label : String}

/-- A label leads the machine to the place just before the line it leads the walker to. -/
theorem position_of_destination {position : Nat} (hp : MadeOf lines p)
    (h : destination lines label = .ok position) :
    p.position label = .ok (Word.before (index lines position)) := by
  unfold destination at h
  split at h
  · next k hk =>
    cases h
    rw [Program.position, hp.labels, hk]
    rfl
  · contradiction

/-- A label that leads the walker nowhere leads the machine nowhere, either. -/
theorem position_of_destination_eq_error (hp : MadeOf lines p)
    (h : destination lines label = .error f) : p.position label = .error f := by
  unfold destination at h
  split at h
  · contradiction
  · next hk =>
    cases h
    rw [Program.position, hp.labels, hk]
    rfl

/-! ### One instruction -/

/-- The step forward after an instruction that leaves the machine just before the line at
`position`: the pointer comes to that line. -/
theorem next?_before_index (hp : MadeOf lines p) (hsize : p.size < Word.indexCount)
    (position : Nat) :
    (Word.before (index lines position)).next? = some (Word.before (index lines position + 1)) :=
  Word.next?_before (Nat.lt_of_le_of_lt (hp.index_le_size position) hsize)

/-- **An instruction that can be performed** has the same effect on the machine, up to the
step forward that comes after it. -/
theorem effect_of_perform (hp : MadeOf lines p) (hsize : p.size < Word.indexCount)
    (hline : lines[w.position]? = some line)
    (hs : Statement.ofLine line = .ok (.instruction i)) (h : w.perform lines i = .ok w') :
    ∃ m₁, Machine.Effect p (w.machine lines) i m₁ ∧
      m₁.pointer.next? = some (Word.before (index lines w'.position + 1)) ∧
      { m₁ with
        steps := m₁.steps + 1, pointer := Word.before (index lines w'.position + 1) } =
        { w' with steps := w.steps + 1 }.machine lines := by
  have hidx : index lines (w.position + 1) = index lines w.position + 1 :=
    Line.index_succ_of_instruction hline hs
  -- An instruction that leaves the pointer alone is followed by the step to the next line.
  have hstep : (w.machine lines).pointer.next? =
      some (Word.before (index lines (w.position + 1) + 1)) := by
    rw [machine, ← hidx]
    exact next?_before_index hp hsize _
  -- Jumps, calls and returns leave the pointer just before the line they lead to.
  cases i with
  | mov target source =>
    simp only [perform, Except.bind_eq_ok_iff, Except.pure_eq_ok_iff] at h
    obtain ⟨y, hy, rfl⟩ := h
    exact ⟨_, .mov (by rwa [machine_value]), hstep, rfl⟩
  | inc target =>
    simp only [perform, Except.bind_eq_ok_iff, Except.pure_eq_ok_iff] at h
    obtain ⟨x, hx, rfl⟩ := h
    exact ⟨_, .inc hx, hstep, rfl⟩
  | dec target =>
    simp only [perform, Except.bind_eq_ok_iff, Except.pure_eq_ok_iff] at h
    obtain ⟨x, hx, rfl⟩ := h
    exact ⟨_, .dec hx, hstep, rfl⟩
  | arith op target source =>
    simp only [perform, Except.bind_eq_ok_iff, Except.pure_eq_ok_iff] at h
    obtain ⟨x, hx, y, hy, z, hz, rfl⟩ := h
    exact ⟨_, .arith hx (by rwa [machine_value]) hz, hstep, rfl⟩
  | cmp left right =>
    simp only [perform, Except.bind_eq_ok_iff, Except.pure_eq_ok_iff] at h
    obtain ⟨x, hx, y, hy, rfl⟩ := h
    exact ⟨_, .cmp (by rwa [machine_value]) (by rwa [machine_value]), hstep, rfl⟩
  | jmp label =>
    simp only [perform, Except.bind_eq_ok_iff, Except.pure_eq_ok_iff] at h
    obtain ⟨position, hd, rfl⟩ := h
    exact ⟨_, .jmp (position_of_destination hp hd), next?_before_index hp hsize _, rfl⟩
  | jumpIf condition label =>
    rw [perform] at h
    cases hc : w.comparison with
    | none => simp only [hc] at h; contradiction
    | some pair =>
      obtain ⟨x, y⟩ := pair
      have hm : (w.machine lines).compared = .ok (x, y) := by
        simp only [Machine.compared, machine, hc]
      cases hh : condition.holds x y with
      | true =>
        simp only [hc, hh, if_true, Except.bind_eq_ok_iff, Except.pure_eq_ok_iff] at h
        obtain ⟨position, hd, rfl⟩ := h
        exact ⟨_, .taken hm hh (position_of_destination hp hd),
          next?_before_index hp hsize _, rfl⟩
      | false =>
        simp only [hc, hh, Bool.false_eq_true, if_false, Except.pure_eq_ok_iff] at h
        subst h
        exact ⟨_, .untaken hm hh, hstep, rfl⟩
  | call label =>
    simp only [perform, Except.bind_eq_ok_iff, Except.pure_eq_ok_iff] at h
    obtain ⟨position, hd, rfl⟩ := h
    refine ⟨_, .call (position_of_destination hp hd), next?_before_index hp hsize _, ?_⟩
    -- The machine keeps its pointer, which is the word before the line after the call.
    simp only [Machine.enter, machine, List.map_cons, hidx]
  | ret =>
    rw [perform] at h
    cases hr : w.returns with
    | nil => simp only [hr] at h; contradiction
    | cons position returns =>
      simp only [hr, Except.pure_eq_ok_iff] at h
      subst h
      -- Every place on the stack stands just before a line to come back to.
      have hm : (w.machine lines).stack = Word.before (index lines position) ::
          returns.map fun position => Word.before (index lines position) := by
        simp only [machine, hr, List.map_cons]
      exact ⟨_, .ret hm, next?_before_index hp hsize _, rfl⟩
  | msg parts =>
    simp only [perform, Except.bind_eq_ok_iff, Except.pure_eq_ok_iff] at h
    obtain ⟨texts, ht, rfl⟩ := h
    exact ⟨_, .msg (by rwa [machine_render]), hstep, rfl⟩
  | halt =>
    simp only [perform, Except.pure_eq_ok_iff] at h
    subst h
    exact ⟨_, .halt, hstep, rfl⟩

/-- **An instruction that cannot be performed** fails for the same reason on the machine. -/
theorem meets_of_perform (hp : MadeOf lines p) (h : w.perform lines i = .error f) :
    Machine.Meets p (w.machine lines) i f := by
  -- The reads fail in the same order on both sides.
  cases i with
  | mov target source =>
    rw [perform, Except.bind_pure_eq_error_iff] at h
    exact .mov (by rwa [machine_value])
  | inc target =>
    rw [perform, Except.bind_pure_eq_error_iff] at h
    exact .inc h
  | dec target =>
    rw [perform, Except.bind_pure_eq_error_iff] at h
    exact .dec h
  | arith op target source =>
    simp only [perform, Except.bind_eq_error_iff, Except.pure_ne_error, and_false,
      exists_false, or_false] at h
    -- The target is read first, then the source, and the operation comes last.
    rcases h with hx | ⟨x, hx, hy | ⟨y, hy, hz⟩⟩
    · exact .arithTarget hx
    · exact .arithSource hx (by rwa [machine_value])
    · exact .arithApply hx (by rwa [machine_value]) hz
  | cmp left right =>
    simp only [perform, Except.bind_eq_error_iff, Except.pure_ne_error, and_false,
      exists_false, or_false] at h
    rcases h with hx | ⟨x, hx, hy⟩
    · exact .cmpLeft (by rwa [machine_value])
    · exact .cmpRight (by rwa [machine_value]) (by rwa [machine_value])
  | jmp label =>
    rw [perform, Except.bind_pure_eq_error_iff] at h
    exact .jmp (position_of_destination_eq_error hp h)
  | jumpIf condition label =>
    rw [perform] at h
    cases hc : w.comparison with
    | none =>
      -- The pair is asked for before the label.
      simp only [hc] at h
      cases h
      exact .jumpCompared (by simp only [Machine.compared, machine, hc])
    | some pair =>
      obtain ⟨x, y⟩ := pair
      have hm : (w.machine lines).compared = .ok (x, y) := by
        simp only [Machine.compared, machine, hc]
      cases hh : condition.holds x y with
      | true =>
        simp only [hc, hh, if_true, Except.bind_pure_eq_error_iff] at h
        exact .jumpLabel hm hh (position_of_destination_eq_error hp h)
      | false =>
        simp only [hc, hh, Bool.false_eq_true, if_false, Except.pure_ne_error] at h
  | call label =>
    rw [perform, Except.bind_pure_eq_error_iff] at h
    exact .call (position_of_destination_eq_error hp h)
  | ret =>
    rw [perform] at h
    cases hr : w.returns with
    | nil =>
      -- No line to come back to, and so no place on the stack.
      simp only [hr] at h
      cases h
      exact .ret (by simp only [machine, hr, List.map_nil])
    | cons position returns => simp only [hr, Except.pure_ne_error] at h
  | msg parts =>
    rw [perform, Except.bind_pure_eq_error_iff] at h
    exact .msg (by rwa [machine_render])
  | halt => simp only [perform, Except.pure_ne_error] at h

/-! ### One turn -/

/-- The machine fetches the instruction that the walker reads off its line. -/
theorem fetch_machine (hp : MadeOf lines p) (hsize : p.size < Word.indexCount)
    (hline : lines[w.position]? = some line)
    (hs : Statement.ofLine line = .ok (.instruction i)) :
    p.fetch (w.machine lines).pointer = some i := by
  have hlt : index lines w.position < Word.indexCount :=
    Nat.lt_of_le_of_lt (hp.index_le_size _) hsize
  rw [machine, Program.fetch_before_succ hlt, ← Array.getElem?_toList, hp.instructions]
  exact Line.getElem?_filterMap_index hline hs

/-- Past the last line the machine has nothing to fetch. -/
theorem fetch_machine_eq_none (hp : MadeOf lines p) (hsize : p.size < Word.indexCount)
    (hline : lines[w.position]? = none) : p.fetch (w.machine lines).pointer = none := by
  -- All instructions stand on lines before.
  have hend : index lines w.position = p.size := by
    rw [Line.index_of_length_le (List.getElem?_eq_none_iff.1 hline), ← hp.instructions,
      Array.length_toList, Program.size]
  rw [machine, hend, Program.fetch_before_succ hsize]
  exact Array.getElem?_eq_none_iff.2 (Nat.le_refl _)

variable {c : Config}

/-- **The simulation diagram.** After a turn of the walk the machine has taken a turn as
well, or has stood still for a label. -/
theorem stutter_or_turn (hp : MadeOf lines p) (hsize : p.size < Word.indexCount)
    (h : turn lines c.bound w = .next w') :
    w'.machine lines = w.machine lines ∨
      Machine.Turn p c (w.machine lines) (w'.machine lines) := by
  unfold turn at h
  split at h
  · contradiction
  · next running =>
    split at h
    · contradiction
    · next line hline =>
      split at h
      · contradiction
      · -- a label has the same index as the line after it
        next name hs =>
        cases h
        refine .inl ?_
        simp only [machine, moveTo, Line.index_succ_of_label hline hs]
      · next i hs =>
        split at h
        · contradiction
        · next hb =>
          split at h
          · -- an instruction: both go on
            next w₁ hw =>
            cases h
            obtain ⟨m₁, effect, next, hm⟩ := effect_of_perform hp hsize hline hs hw
            rw [← hm]
            exact .inr (.intro (Bool.eq_false_iff.2 running) (fetch_machine hp hsize hline hs)
              (Nat.lt_of_not_le hb) effect next)
          · contradiction

/-- The last turn of the walk is the last turn of the machine. -/
theorem ends_of_turn {r : Except InterpretError Outcome} (hp : MadeOf lines p)
    (hsize : p.size < Word.indexCount) (h : turn lines c.bound w = .stop r w') :
    ∃ r', Machine.Ends p c (w.machine lines) r' (w'.machine lines) ∧ r'.mapError .run = r := by
  unfold turn at h
  split at h
  · -- the walker is halted, and so is the machine
    next halted =>
    cases h
    exact ⟨_, .halted halted, rfl⟩
  · next running =>
    have running : (w.machine lines).halted = false := Bool.eq_false_iff.2 running
    split at h
    · -- no line is left, and so no instruction
      next hline =>
      cases h
      exact ⟨_, .runoff running (fetch_machine_eq_none hp hsize hline), rfl⟩
    · next line hline =>
      split at h
      · -- no line of an assembled text is bad
        next e hs =>
        obtain ⟨s, hs'⟩ := hp.parsed line (List.mem_of_getElem? hline)
        rw [hs] at hs'
        contradiction
      · contradiction
      · next i hs =>
        have fetched := fetch_machine hp hsize hline hs
        split at h
        · next hb =>
          cases h
          exact ⟨_, .limit running fetched hb, rfl⟩
        · next hb =>
          split at h
          · contradiction
          · next f hw =>
            cases h
            exact ⟨_, .fault running fetched (Nat.lt_of_not_le hb) (meets_of_perform hp hw), rfl⟩

/-! ### The whole walk -/

/-- **A walk and the run of the machine come to the same.** -/
theorem run_machine (hp : MadeOf lines p) (hsize : p.size < Word.indexCount) (w : Walker) :
    ((w.machine lines).run p c).result.mapError InterpretError.run =
        (walk lines c.bound w).1 ∧
      ((w.machine lines).run p c).machine = (walk lines c.bound w).2.machine lines := by
  -- The induction is on the walk, which has a turn for every turn of the machine.
  induction w using walk.induct lines c.bound with
  | case1 w w' hturn ih =>
    rw [walk_of_turn_eq_next hturn]
    rcases stutter_or_turn hp hsize hturn with hm | hm
    · -- A label: the machine stands still, and the walk behind it is the one to look at.
      rwa [hm] at ih
    · -- An instruction: both have taken a turn.
      rwa [hm.run_eq.1, hm.run_eq.2]
  | case2 w r w' hturn =>
    rw [walk_of_turn_eq_stop hturn]
    obtain ⟨r', ends, hr⟩ := ends_of_turn hp hsize hturn
    rw [ends.run_eq.1, ends.run_eq.2]
    exact ⟨hr, rfl⟩

end Walker

open Walker

/-- **Assembling keeps the meaning of a text.** Interpreting a text, which assembles it and
runs the program on a machine that was just switched on, ends as the walk through its lines
does, and leaves the machine that stands where the walker was left: with its registers, its
compared pair, its output, its halt flag and its count, with its pointer on the walker's
line and with a place on the stack for every line to come back to.

A list of instructions in memory is shorter than `Word.indexCount`. -/
theorem interpret_eq_walk {source : String} {c : Config} {p : Program}
    (hp : Program.assemble source = .ok p) (hsize : p.size < Word.indexCount) :
    ∃ run, runSource source c = .ok run ∧
      interpret source c = (walk (Line.ofSource source) c.bound {}).1 ∧
      run.machine = (walk (Line.ofSource source) c.bound {}).2.machine (Line.ofSource source) := by
  -- A walker on the first line and a machine that was just switched on stand together.
  have hm : ({} : Walker).machine (Line.ofSource source) = {} := rfl
  obtain ⟨hresult, hmachine⟩ :=
    run_machine (c := c) (Program.madeOf_of_assemble hp) hsize {}
  rw [hm] at hresult hmachine
  refine ⟨Machine.run p c {}, runSource_of_assemble_eq_ok hp, ?_, hmachine⟩
  rw [← hresult, interpret, runSource_of_assemble_eq_ok hp]

/-- A text that declares `f` twice, once next to another label, and calls it from before its
last declaration. -/
def redeclaringText : String :=
  "jmp main\nf:\nmsg 'first'\nret\nmain:\ncall f\nend\nf:\ng:\nmsg 'last'\nret"

/-- This text assembles, and so its interpretation is its walk. -/
theorem interpret_redeclaringText_eq_walk :
    ∃ p, Program.assemble redeclaringText = .ok p ∧ p.size < Word.indexCount ∧
      ∃ run, runSource redeclaringText {} = .ok run ∧
        interpret redeclaringText {} =
          (walk (Line.ofSource redeclaringText) ({} : Config).bound {}).1 ∧
        run.machine = (walk (Line.ofSource redeclaringText) ({} : Config).bound {}).2.machine
          (Line.ofSource redeclaringText) := by
  have h : (Program.assemble redeclaringText).toOption.map Program.size = some 7 := by
    decide +kernel
  cases hp : Program.assemble redeclaringText with
  | error e =>
    rw [hp] at h
    contradiction
  | ok p =>
    rw [hp] at h
    have hsize : p.size < Word.indexCount := by
      rw [Option.some.inj h]
      decide
    exact ⟨p, rfl, hsize, interpret_eq_walk hp hsize⟩

example : interpret redeclaringText {} = .ok (.halted "last") := by decide +kernel

end TinyAsm

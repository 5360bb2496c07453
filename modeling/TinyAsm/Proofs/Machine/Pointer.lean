import TinyAsm.Proofs.Machine.Turn
import TinyAsm.Proofs.Program.Labels

/-!
# Where the pointer and the stack can be

If every label of a program marks a place of the program, its pointer never leaves the
program but by one: it is an index of the program or the index just past it. The invariant
is `InBounds`. Its clause on the stack is what a return needs, whose target is no label: a
place that is kept is the index of a call, and so the step forward from it stays in bounds.

* `InBounds.before_place` — an instruction leaves the pointer just before a place;
* `InBounds.exists_next?` — so the step forward does not fail;
* `InBounds.turn` and `InBounds.ends` — the invariant is kept;
* `Reachable.pointer_safe` — it holds of every reachable machine, no step forward fails, and
  a run that runs off stops exactly past the last instruction.
-/

namespace TinyAsm

namespace Machine

open Program (isLabelPosition isLabelPosition_iff)

/-- **The pointer is in the program or just past it**, and every place on the stack is the
index of a call. -/
structure InBounds (p : Program) (m : Machine) : Prop where
  pointer_nonneg : 0 ≤ m.pointer.toInt
  pointer_le : m.pointer.toInt ≤ p.size
  stack_call : ∀ w ∈ m.stack, ∃ label, p.fetch w = some (.call label)

variable {p : Program} {c : Config} {m m' m₁ : Machine} {i : Instruction}

/-- A fetched instruction stands before the end of the program, and not before its top. -/
theorem toInt_of_fetch {pointer : Word} (h : p.fetch pointer = some i) :
    0 ≤ pointer.toInt ∧ pointer.toInt < p.size := by
  obtain ⟨n, hn, hi⟩ := Program.fetch_eq_some_iff.1 h
  have hlt : n < p.size := (Array.getElem?_eq_some_iff.1 hi).1
  omega

/-- An index of the program is just before a place: the one behind its instruction. -/
theorem isLabelPosition_of_fetch {pointer : Word} (h : p.fetch pointer = some i) :
    isLabelPosition p.size pointer = true := by
  have := toInt_of_fetch h
  exact isLabelPosition_iff.2 (by omega)

/-- The position of a label is a label position, if the labels are in range. -/
theorem isLabelPosition_of_position {label : String} {position : Word} (hl : p.LabelsInRange)
    (h : p.position label = .ok position) : isLabelPosition p.size position = true := by
  unfold Program.position at h
  split at h
  · next hp => cases h; exact hl _ _ hp
  · contradiction

/-- **An instruction leaves the pointer just before a place** of the program, or before its
end, and keeps the stack to indices of calls. -/
theorem InBounds.before_place (h : InBounds p m) (hl : p.LabelsInRange)
    (fetched : p.fetch m.pointer = some i) (effect : Effect p m i m₁) :
    isLabelPosition p.size m₁.pointer = true ∧
      ∀ w ∈ m₁.stack, ∃ label, p.fetch w = some (.call label) := by
  -- Jumps and calls go to labels, a return goes to a call, and all others stay where they are.
  cases effect with
  | jmp hp => exact ⟨isLabelPosition_of_position hl hp, h.stack_call⟩
  | taken _ _ hp => exact ⟨isLabelPosition_of_position hl hp, h.stack_call⟩
  | call hp =>
    refine ⟨isLabelPosition_of_position hl hp, fun w hw => ?_⟩
    rcases List.mem_cons.1 hw with rfl | hw
    · exact ⟨_, fetched⟩
    · exact h.stack_call w hw
  | ret hs =>
    -- The target was kept by a call, and so it is an index of the program.
    obtain ⟨label, hcall⟩ := h.stack_call _ (hs ▸ List.mem_cons_self)
    refine ⟨isLabelPosition_of_fetch hcall, fun w hw => ?_⟩
    exact h.stack_call w (hs ▸ List.mem_cons_of_mem _ hw)
  | _ => exact ⟨isLabelPosition_of_fetch fetched, h.stack_call⟩

/-- From just before a place of a program that fits in memory, the step forward leads to
the place, which is in the program or its end. -/
theorem exists_next?_of_isLabelPosition {pointer : Word} (hsize : p.size < Word.indexCount)
    (h : isLabelPosition p.size pointer = true) :
    ∃ pointer', pointer.next? = some pointer' ∧ 0 ≤ pointer'.toInt ∧
      pointer'.toInt ≤ p.size := by
  obtain ⟨hge, hlt⟩ := isLabelPosition_iff.1 h
  cases hn : pointer.next? with
  | some pointer' =>
    have := Word.next?_eq_some_iff.1 hn
    exact ⟨pointer', rfl, by omega, by omega⟩
  | none =>
    -- The greatest word is not before the end of anything that fits in memory.
    have hmax : pointer.toInt = 9223372036854775807 := by
      rw [Word.next?_eq_none_iff.1 hn]
      rfl
    unfold Word.indexCount at hsize
    omega

section Runs

variable {r : Except RunError Outcome} (hl : p.LabelsInRange) (hsize : p.size < Word.indexCount)

include hl hsize

/-- **After an instruction the pointer can step forward**, and stays in bounds. -/
theorem InBounds.exists_next? (h : InBounds p m) (fetched : p.fetch m.pointer = some i)
    (effect : Effect p m i m₁) :
    ∃ pointer, m₁.pointer.next? = some pointer ∧ 0 ≤ pointer.toInt ∧ pointer.toInt ≤ p.size :=
  exists_next?_of_isLabelPosition hsize (h.before_place hl fetched effect).1

/-! ### Runs -/

/-- **The invariant is kept by every turn**, since the step forward stays in bounds. -/
theorem InBounds.turn (h : InBounds p m) (t : Turn p c m m') : InBounds p m' := by
  cases t with
  | intro running fetched within effect next =>
    obtain ⟨pointer, next', hge, hle⟩ := h.exists_next? hl hsize fetched effect
    rw [next] at next'
    cases next'
    exact ⟨hge, hle, (h.before_place hl fetched effect).2⟩

/-- An end leaves the machine as it was, as far as the invariant goes. -/
theorem InBounds.ends (h : InBounds p m) (e : Ends p c m r m') : InBounds p m' := by
  cases e with
  | halted | runoff | limit | fault => exact h
  | overflow running fetched within effect next =>
    -- This way out is never taken.
    obtain ⟨pointer, next', -⟩ := h.exists_next? hl hsize fetched effect
    rw [next] at next'
    contradiction

omit hl hsize in
theorem inBounds_start : InBounds p {} where
  pointer_nonneg := Int.le_refl 0
  pointer_le := Int.natCast_nonneg p.size
  stack_call := fun _ hw => absurd hw List.not_mem_nil

/-- **Every reachable machine is in bounds.** -/
theorem inBounds_of_reachable (h : Reachable p m) : InBounds p m :=
  h.invariant inBounds_start (InBounds.turn hl hsize) (InBounds.ends hl hsize)

/-- A run that runs off does so with its pointer just past the program. -/
theorem toInt_pointer_of_ends (h : InBounds p m) (e : Ends p c m (.ok .runoff) m') :
    m'.pointer.toInt = p.size := by
  cases e with
  | runoff running fetched =>
    -- The pointer is not in the program, and in bounds there is only one such place.
    have hge := h.pointer_nonneg
    have hle := h.pointer_le
    have hout := Program.fetch_eq_none_iff.1 fetched
    omega
  | overflow running fetched within effect next =>
    obtain ⟨pointer, next', -⟩ := h.exists_next? hl hsize fetched effect
    rw [next] at next'
    contradiction

end Runs

/-- **The pointer and the stack are safe.** If the labels of a program mark places of it,
then whatever history of runs leads to a machine, its pointer is in the program or just past
it, and its stack holds indices of calls. So after an instruction the pointer can always
step forward, and a run that runs off has come exactly to the end.

A list of instructions in memory is shorter than `Word.indexCount`. -/
theorem Reachable.pointer_safe (hl : p.LabelsInRange) (hsize : p.size < Word.indexCount)
    (h : Reachable p m) :
    InBounds p m ∧
      (∀ i m₁, p.fetch m.pointer = some i → execute p i m = .ok () m₁ →
        m₁.pointer.next? ≠ none) ∧
      ∀ c, (m.run p c).result = .ok .runoff →
        (m.run p c).machine.pointer.toInt = p.size := by
  -- What is said of one instruction and of one run follows from the invariant.
  have hm := inBounds_of_reachable hl hsize h
  refine ⟨hm, ?next, ?runoff⟩
  case next =>
    intro i m₁ fetched hx
    have effect : Effect p m i m₁ := execute_eq_ok_iff.1 hx
    obtain ⟨pointer, next, -⟩ := hm.exists_next? hl hsize fetched effect
    rw [next]
    exact Option.some_ne_none pointer
  case runoff =>
    intro c hr
    -- The head of the last turn is reachable as well.
    obtain ⟨m₁, turns, ends⟩ := exists_turns_ends p c m
    have h₁ : Reachable p m₁ := turns_invariant (fun h t => h.turn t) turns h
    rw [hr] at ends
    exact toInt_pointer_of_ends hl hsize (inBounds_of_reachable hl hsize h₁) ends

/-- A machine that has made a call: it stands at the last instruction of the program, with
the call on its stack. -/
theorem pointer_safe_of_call :
    ∃ p m, p = ⟨#[.call "f", .halt, .ret], (∅ : Table).insert "f" 1⟩ ∧
      m = { pointer := 2, stack := [0], steps := 1 } ∧
      p.LabelsInRange ∧ p.size < Word.indexCount ∧ Reachable p m ∧ InBounds p m ∧
      (∀ i m₁, p.fetch m.pointer = some i → execute p i m = .ok () m₁ →
        m₁.pointer.next? ≠ none) ∧
      ∀ c, (m.run p c).result = .ok .runoff →
        (m.run p c).machine.pointer.toInt = p.size := by
  have hl : Program.LabelsInRange
      ⟨#[.call "f", .halt, .ret], (∅ : Table).insert "f" 1⟩ := by decide +kernel
  have hm : (run ⟨#[.call "f", .halt, .ret], (∅ : Table).insert "f" 1⟩
      { stepLimit := some 1 } {}).machine = { pointer := 2, stack := [0], steps := 1 } := by
    decide +kernel
  have h := hm ▸ Reachable.run { stepLimit := some 1 } .start
  exact ⟨_, _, rfl, rfl, hl, by decide, h, h.pointer_safe hl (by decide)⟩

end Machine

end TinyAsm

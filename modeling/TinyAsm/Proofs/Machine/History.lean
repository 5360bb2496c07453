import TinyAsm.Proofs.Machine.Turn

/-!
# The history of a run

What a run has done so far is the list of the instructions that it has executed. This module
puts that list beside the machines of a run:

* `History p c m es m'` — the run that starts on `m` has executed `es`, and stands at the head
  of the loop with the machine `m'`;
* `Point p c m es m'` — the same, but `m'` may also be the machine that is left at the end of
  the run, where a last instruction was executed and the pointer could not step forward.

Each entry of the list is a `Moment`: the instruction together with the machine that executed
it, so that a history tells what was in the registers or on the stack at that time.

`exists_history_ends` states that every run has a history up to the turn with which it ends,
and `History.run_eq` that every history is one of the run that it is about. A property of
histories is proved by `Point.invariant`: it has to hold before the first instruction, and to
be kept by the effect of one more, wherever that leaves the pointer.
-/

namespace TinyAsm

namespace Machine

/-- An instruction that was executed, and the machine that executed it. -/
structure Moment where
  machine : Machine
  instruction : Instruction

/-- The index that the instruction was fetched from. -/
def Moment.pointer (e : Moment) : Word :=
  e.machine.pointer

/-- **The turns of a run**, with what they have executed. -/
inductive History (p : Program) (c : Config) (m₀ : Machine) :
    List Moment → Machine → Prop where
  | start : History p c m₀ [] m₀
  | turn {es : List Moment} {m m₁ : Machine} {i : Instruction} {pointer : Word}
      (history : History p c m₀ es m) (running : m.halted = false)
      (fetched : p.fetch m.pointer = some i) (within : m.steps < c.bound)
      (effect : Effect p m i m₁) (next : m₁.pointer.next? = some pointer) :
      History p c m₀ (es ++ [⟨m, i⟩]) { m₁ with steps := m₁.steps + 1, pointer := pointer }

/-- **The points of a run**: the heads of its turns, and what it leaves if the pointer cannot
step forward. -/
inductive Point (p : Program) (c : Config) (m₀ : Machine) :
    List Moment → Machine → Prop where
  | head {es : List Moment} {m : Machine} (history : History p c m₀ es m) :
      Point p c m₀ es m
  | overflow {es : List Moment} {m m₁ : Machine} {i : Instruction}
      (history : History p c m₀ es m) (running : m.halted = false)
      (fetched : p.fetch m.pointer = some i) (within : m.steps < c.bound)
      (effect : Effect p m i m₁) (next : m₁.pointer.next? = none) :
      Point p c m₀ (es ++ [⟨m, i⟩]) { m₁ with steps := m₁.steps + 1 }

variable {p : Program} {c : Config} {m₀ m m' : Machine} {es before after : List Moment}
  {e : Moment}

/-! ### Histories and runs -/

/-- A chain of turns has a history: each turn has executed one instruction. -/
theorem History.of_turns (turns : Relation.ReflTransGen (Turn p c) m₀ m) :
    ∃ es, History p c m₀ es m := by
  induction turns with
  | refl => exact ⟨[], .start⟩
  | tail _ turn ih =>
    obtain ⟨es, history⟩ := ih
    cases turn with
    | intro running fetched within effect next =>
      exact ⟨_, .turn history running fetched within effect next⟩

theorem History.turns (h : History p c m₀ es m) : Relation.ReflTransGen (Turn p c) m₀ m := by
  induction h with
  | start => exact .refl
  | turn _ running fetched within effect next ih =>
    exact ih.tail (.intro running fetched within effect next)

/-- **Every run has a history** up to the turn with which it ends. -/
theorem exists_history_ends (p : Program) (c : Config) (m : Machine) :
    ∃ es m₁, History p c m es m₁ ∧
      Ends p c m₁ (m.run p c).result (m.run p c).machine := by
  obtain ⟨m₁, turns, ends⟩ := exists_turns_ends p c m
  obtain ⟨es, history⟩ := History.of_turns turns
  exact ⟨es, m₁, history, ends⟩

/-- What an end leaves is a point of the run. -/
theorem History.exists_point_of_ends {r : Except RunError Outcome} (h : History p c m₀ es m)
    (ends : Ends p c m r m') : ∃ es', Point p c m₀ es' m' := by
  -- All ends but the last leave the machine that stood at the head of the turn.
  cases ends with
  | halted | runoff | limit | fault => exact ⟨es, .head h⟩
  | overflow running fetched within effect next =>
    exact ⟨_, .overflow h running fetched within effect next⟩

/-- **What a run leaves is one of its points.** -/
theorem exists_point_run (p : Program) (c : Config) (m : Machine) :
    ∃ es, Point p c m es (m.run p c).machine := by
  obtain ⟨es, m₁, history, ends⟩ := exists_history_ends p c m
  exact history.exists_point_of_ends ends

/-- A history is one of the run that starts on its first machine. -/
theorem History.run_eq (h : History p c m₀ es m) :
    (m₀.run p c).result = (m.run p c).result ∧
      (m₀.run p c).machine = (m.run p c).machine := by
  induction h with
  | start => exact ⟨rfl, rfl⟩
  | turn _ running fetched within effect next ih =>
    -- A turn takes nothing away from the run, as those before it have not.
    obtain ⟨hresult, hmachine⟩ := (Turn.intro running fetched within effect next).run_eq
    exact ⟨ih.1.trans hresult, ih.2.trans hmachine⟩

/-- **The step counter is the length of the history**, on top of what it was at first. -/
theorem History.steps_eq (h : History p c m₀ es m) : m.steps = m₀.steps + es.length := by
  induction h with
  | start => rfl
  | turn _ running fetched within effect next ih =>
    rw [(Turn.intro running fetched within effect next).steps_eq, ih, List.length_append]
    rfl

/-! ### Parts of a history -/

/-- An entry of a list with one more at its end is that one, or stands before it. -/
theorem eq_or_exists_of_append_cons_eq_concat {last : Moment}
    (h : before ++ e :: after = es ++ [last]) :
    (before = es ∧ e = last) ∨ ∃ after', es = before ++ e :: after' := by
  rcases List.eq_nil_or_concat after with rfl | ⟨after', last', rfl⟩
  · obtain ⟨hbefore, he⟩ := List.append_inj' h rfl
    exact .inl ⟨hbefore, List.singleton_inj.1 he⟩
  · rw [List.concat_eq_append, ← List.cons_append, ← List.append_assoc] at h
    exact .inr ⟨after', (List.append_inj' h rfl).1.symm⟩

/-- The machine of a moment is the one to which the moments before it have led. -/
theorem History.of_append_cons (h : History p c m₀ (before ++ e :: after) m) :
    History p c m₀ before e.machine := by
  generalize hes : before ++ e :: after = es at h
  induction h generalizing after with
  | start => exact absurd hes (List.append_ne_nil_of_right_ne_nil _ (List.cons_ne_nil _ _))
  | turn history _ _ _ _ _ ih =>
    -- The moment is that of the last turn, or it stands in the history before.
    rcases eq_or_exists_of_append_cons_eq_concat hes with ⟨rfl, rfl⟩ | ⟨after', rfl⟩
    · exact history
    · exact ih rfl

/-- What was executed before a moment of a point is a history as well: a point has at most one
instruction on top of a history. -/
theorem Point.history_of_append_cons (h : Point p c m₀ (before ++ e :: after) m) :
    History p c m₀ before e.machine := by
  generalize hes : before ++ e :: after = es at h
  cases h with
  | head history =>
    subst hes
    exact history.of_append_cons
  | overflow history _ _ _ _ _ =>
    rcases eq_or_exists_of_append_cons_eq_concat hes with ⟨rfl, rfl⟩ | ⟨after', rfl⟩
    · exact history
    · exact history.of_append_cons

/-- The last entry of a history has had its effect, and the pointer has stepped forward. -/
theorem History.effect_of_concat (h : History p c m₀ (es ++ [e]) m) :
    ∃ m₁, Effect p e.machine e.instruction m₁ ∧ m₁.pointer.next? = some m.pointer ∧
      m = { m₁ with steps := m.steps, pointer := m.pointer } := by
  generalize hes : es ++ [e] = all at h
  cases h with
  | start => exact absurd hes (List.append_ne_nil_of_right_ne_nil _ (List.cons_ne_nil _ _))
  | turn _ _ _ _ effect next =>
    obtain ⟨-, he⟩ := List.append_inj' hes rfl
    cases he
    exact ⟨_, effect, next, rfl⟩

/-- The last entry of a point has had its effect, wherever this has left the pointer. -/
theorem Point.effect_of_concat (h : Point p c m₀ (es ++ [e]) m) :
    ∃ m₁, Effect p e.machine e.instruction m₁ ∧
      m = { m₁ with steps := m.steps, pointer := m.pointer } := by
  generalize hes : es ++ [e] = all at h
  cases h with
  | head history =>
    subst hes
    obtain ⟨m₁, effect, -, hm⟩ := history.effect_of_concat
    exact ⟨m₁, effect, hm⟩
  | overflow _ _ _ _ effect _ =>
    obtain ⟨-, he⟩ := List.append_inj' hes rfl
    cases he
    exact ⟨_, effect, rfl⟩

/-! ### What holds along a history -/

section Invariant

variable {P : List Moment → Machine → Prop} (start : P [] m₀)
  (effect : ∀ {es : List Moment} {m m₁ : Machine} {i : Instruction}, P es m →
    p.fetch m.pointer = some i → Effect p m i m₁ →
      ∀ steps pointer, P (es ++ [⟨m, i⟩]) { m₁ with steps := steps, pointer := pointer })

include start effect

theorem History.invariant (h : History p c m₀ es m) : P es m := by
  induction h with
  | start => exact start
  | turn _ _ fetched _ heffect _ ih => exact effect ih fetched heffect _ _

/-- **The rule for histories.** A property of what was executed and of the machine that it has
led to holds at every point of a run, if it holds before the first instruction and one more
instruction keeps it. Counting the instruction and moving the pointer must not matter. -/
theorem Point.invariant (h : Point p c m₀ es m) : P es m := by
  cases h with
  | head history => exact history.invariant start effect
  | overflow history _ fetched _ heffect _ =>
    exact effect (history.invariant start effect) fetched heffect _ _

end Invariant

end Machine

end TinyAsm

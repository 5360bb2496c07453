import TinyAsm.Proofs.Machine.Brackets
import TinyAsm.Proofs.Machine.Fault

/-!
# Calls and returns match like brackets

The stack of a machine says what is still to be done; the history of its run says what was
done. This module relates the two. At every point of a run the stack holds the places of the
calls that no return has matched (`unmatched_of_point`), and so a return goes on right behind
the call that it matches, and fails exactly if there is none left.

The step from one instruction to a whole history is `unmatched_of_effect`. What a return finds
on the stack is not said by that invariant alone, since it speaks of the oldest call first:
`stack_of_balanced` says what has become of the stack since a call, however much was called
and returned from in between.
-/

namespace TinyAsm

namespace Machine

variable {p : Program} {c : Config} {m₀ m m₁ : Machine} {i : Instruction}
  {es before inner rest : List Moment} {e call : Moment} {places : List Word}

/-! ### One instruction -/

/-- An instruction keeps and drops places on the stack as its moment says. -/
theorem stack_of_effect (h : Effect p m i m₁) : m₁.stack = adjust m.stack ⟨m, i⟩ := by
  cases h with
  | @call label position _ =>
    have hcall : Moment.isCall ⟨m, .call label⟩ = true := rfl
    exact (adjust_of_isCall hcall).symm
  | ret hs =>
    have hret : Moment.isRet ⟨m, .ret⟩ = true := rfl
    rw [adjust_of_isRet hret, hs]
    rfl
  -- No other instruction is a bracket, and none of them touches the stack.
  | _ => exact (adjust_of_plain rfl rfl).symm

/-- **What one more instruction does to the unmatched calls**, it does to the stack. -/
theorem unmatched_of_effect (h : Unmatched es m.stack.reverse) (effect : Effect p m i m₁) :
    Unmatched (es ++ [⟨m, i⟩]) m₁.stack.reverse := by
  cases effect with
  | call =>
    rw [enter, List.reverse_cons]
    exact h.concat_call rfl
  | ret hs =>
    -- The place that is dropped was on top, and so it is that of the last unmatched call.
    rw [hs, List.reverse_cons] at h
    exact h.concat_ret rfl
  | _ => exact h.concat rfl rfl

/-- A call adds one to the places on the stack, and a return takes one away. -/
theorem length_stack_of_effect (effect : Effect p m i m₁) :
    m₁.stack.length + [(⟨m, i⟩ : Moment)].countP Moment.isRet =
      m.stack.length + [(⟨m, i⟩ : Moment)].countP Moment.isCall := by
  cases effect with
  | ret hs => rw [hs]; rfl
  | _ => rfl

/-! ### Whole histories -/

/-- **The stack holds the unmatched calls** at every point of a run, the latest on top. -/
theorem unmatched_of_point (h : Point p c {} es m) : Unmatched es m.stack.reverse := by
  refine Point.invariant (P := fun es m => Unmatched es m.stack.reverse) ?start ?effect h
  case start => exact .balanced .nil
  case effect =>
    intro es m m₁ i h _ effect steps pointer
    have hone : Unmatched (es ++ [⟨m, i⟩]) m₁.stack.reverse := unmatched_of_effect h effect
    exact hone

/-- The stack is as deep as more calls than returns were executed. -/
theorem length_stack_of_point (h : Point p c {} es m) :
    m.stack.length + es.countP Moment.isRet = es.countP Moment.isCall := by
  refine Point.invariant
    (P := fun es m => m.stack.length + es.countP Moment.isRet = es.countP Moment.isCall)
    ?start ?effect h
  case start => rfl
  case effect =>
    intro es m m₁ i h _ effect steps pointer
    have hone := length_stack_of_effect effect
    rw [List.countP_append, List.countP_append]
    change m₁.stack.length + _ = _
    omega

/-- The stack of a run, computed from its history. -/
theorem stack_of_point (h : Point p c m₀ es m) : m.stack = es.foldl adjust m₀.stack := by
  refine Point.invariant (P := fun es m => m.stack = es.foldl adjust m₀.stack) ?start ?effect h
  case start => rfl
  case effect =>
    intro es m m₁ i h _ effect steps pointer
    have hone : m₁.stack = adjust m.stack ⟨m, i⟩ := stack_of_effect effect
    rw [List.foldl_append, List.foldl_cons, List.foldl_nil, ← h, ← hone]

/-- The stack since a call: the place of the call was put on the stack of that time, and the
rest of the history has been worked on top of it. -/
theorem stack_of_append_cons (h : Point p c m₀ (before ++ call :: rest) m)
    (hcall : call.isCall = true) :
    m.stack = rest.foldl adjust (call.pointer :: call.machine.stack) := by
  have hbefore : call.machine.stack = before.foldl adjust m₀.stack :=
    stack_of_point (.head h.history_of_append_cons)
  calc m.stack
      = (before ++ call :: rest).foldl adjust m₀.stack := stack_of_point h
    _ = rest.foldl adjust (adjust call.machine.stack call) := by
        rw [List.foldl_append, List.foldl_cons, hbefore]
    _ = rest.foldl adjust (call.pointer :: call.machine.stack) := by
        rw [adjust_of_isCall hcall]

/-- When all that was called since has returned, the call is on top of the stack again. -/
theorem stack_of_balanced (h : Point p c m₀ (before ++ call :: inner) m)
    (hcall : call.isCall = true) (hinner : Balanced inner) :
    m.stack = call.pointer :: call.machine.stack := by
  rw [stack_of_append_cons h hcall, hinner.foldl_adjust]

/-! ### Returns -/

/-- An executed return drops what a call has put on the stack. -/
theorem exists_stack_of_ret (h : Point p c m₀ (es ++ [e]) m) (hret : e.isRet = true) :
    ∃ place, e.machine.stack = place :: m.stack := by
  obtain ⟨m₁, effect, hm⟩ := h.effect_of_concat
  rw [Moment.isRet_iff.1 hret] at effect
  cases effect with
  | @ret place stack hs =>
    have hstack : m.stack = stack := congrArg Machine.stack hm
    exact ⟨place, hs.trans (hstack ▸ rfl)⟩

/-- **An executed return has a call to match**, and leaves the stack of the time of that
call. -/
theorem exists_call_of_ret (h : Point p c {} (es ++ [e]) m) (hret : e.isRet = true) :
    ∃ before call inner, es = before ++ call :: inner ∧ call.isCall = true ∧
      Balanced inner ∧ m.stack = call.machine.stack := by
  have hbefore : Point p c {} es e.machine := .head h.history_of_append_cons
  obtain ⟨place, hstack⟩ := exists_stack_of_ret h hret
  -- The place that is dropped is that of the last unmatched call.
  have hes : Unmatched es (m.stack.reverse ++ [place]) := by
    have := unmatched_of_point hbefore
    rwa [hstack, List.reverse_cons] at this
  obtain ⟨before, call, inner, rfl, hcall, -, hinner, -⟩ := hes.exists_call
  refine ⟨before, call, inner, rfl, hcall, hinner, ?_⟩
  have hcalled := stack_of_balanced hbefore hcall hinner
  exact (List.cons.inj (hstack.symm.trans hcalled)).2

/-- **The run goes on right behind the call** that a return matches. -/
theorem pointer_of_ret (h : History p c m₀ (before ++ call :: inner ++ [e]) m)
    (hcall : call.isCall = true) (hinner : Balanced inner) (hret : e.isRet = true) :
    m.pointer.toInt = call.pointer.toInt + 1 := by
  have hstack : e.machine.stack = call.pointer :: call.machine.stack :=
    stack_of_balanced (.head h.of_append_cons) hcall hinner
  obtain ⟨m₁, effect, next, -⟩ := h.effect_of_concat
  rw [Moment.isRet_iff.1 hret] at effect
  cases effect with
  | ret hs =>
    -- The place on the stack is the one that the call has put there.
    obtain ⟨rfl, -⟩ := List.cons.inj (hs.symm.trans hstack)
    exact Word.next?_eq_some_iff.1 next

/-- A run ends for an empty stack exactly if it comes to a return with nothing to match. -/
theorem result_eq_emptyStack_iff :
    (({} : Machine).run p c).result = .error (.fault .emptyStack) ↔
      ∃ es m, History p c {} es m ∧ m.halted = false ∧ p.fetch m.pointer = some .ret ∧
        m.steps < c.bound ∧ Balanced es := by
  constructor
  · intro hresult
    obtain ⟨es, m, history, ends⟩ := exists_history_ends p c {}
    rw [hresult] at ends
    generalize (({} : Machine).run p c).machine = m' at ends
    cases ends with
    | fault running fetched within meets =>
      obtain ⟨rfl, hstack⟩ := meets_emptyStack_iff.1 meets
      -- An empty stack means that no call is unmatched.
      have hes := unmatched_of_point (.head history)
      rw [hstack] at hes
      exact ⟨es, m, history, running, fetched, within, hes.balanced_of_nil⟩
  · rintro ⟨es, m, history, running, fetched, within, hes⟩
    have hstack : m.stack = [] := by
      rw [stack_of_point (.head history), hes.foldl_adjust]
    have ends : Ends p c m (.error (.fault .emptyStack)) m :=
      .fault running fetched within (meets_emptyStack_iff.2 ⟨rfl, hstack⟩)
    exact history.run_eq.1.trans ends.run_eq.1

/-! ### All of it together -/

/-- **In the runs of a program, calls and returns match like brackets.** -/
structure CallsMatchReturns (p : Program) (c : Config) : Prop where
  /-- What a run leaves is one of its points, of which the other clauses speak. -/
  run_point : ∃ es, Point p c {} es (({} : Machine).run p c).machine
  /-- At every point, the stack holds the places of the unmatched calls and nothing else; read
  from below, the oldest comes first. -/
  stack_iff : ∀ {es m}, Point p c {} es m →
    ∀ places, Unmatched es places ↔ m.stack.reverse = places
  /-- It is as deep as more calls than returns were executed. -/
  depth : ∀ {es m}, Point p c {} es m →
    m.stack.length + es.countP Moment.isRet = es.countP Moment.isCall
  /-- Every executed return matches a call, and leaves the stack that the call has found. -/
  ret_matches : ∀ {es e m}, Point p c {} (es ++ [e]) m → e.isRet = true →
    ∃ before call inner, es = before ++ call :: inner ∧ call.isCall = true ∧
      Balanced inner ∧ m.stack = call.machine.stack
  /-- The run goes on with the instruction right behind that call. -/
  ret_resumes : ∀ {before call inner e m},
    History p c {} (before ++ call :: inner ++ [e]) m → call.isCall = true →
      Balanced inner → e.isRet = true → m.pointer.toInt = call.pointer.toInt + 1
  /-- From the call to its return, the place of the call stays where it was put, and what is
  below it stays too. -/
  below_kept : ∀ {before call inner rest m}, Point p c {} (before ++ call :: inner) m →
    call.isCall = true → Balanced (inner ++ rest) →
      ∃ top, m.stack = top ++ call.pointer :: call.machine.stack
  /-- The run ends for an empty stack exactly if a return is reached when every executed call
  has been matched. -/
  underflow_iff : (({} : Machine).run p c).result = .error (.fault .emptyStack) ↔
    ∃ es m, History p c {} es m ∧ m.halted = false ∧ p.fetch m.pointer = some .ret ∧
      m.steps < c.bound ∧ Balanced es

/-- Calls and returns match in the runs of every program, whatever its labels are. -/
theorem callsMatchReturns (p : Program) (c : Config) : CallsMatchReturns p c where
  run_point := exists_point_run p c {}
  stack_iff := by
    intro es m h places
    -- The stack tells one list of unmatched calls, and there is no second one.
    have hstack := unmatched_of_point h
    constructor
    · exact fun hplaces => hstack.unique hplaces
    · rintro rfl
      exact hstack
  depth := length_stack_of_point
  ret_matches := exists_call_of_ret
  ret_resumes := pointer_of_ret
  below_kept := by
    intro before call inner rest m h hcall hinner
    obtain ⟨top, htop⟩ := hinner.exists_foldl_adjust_eq_append (List.prefix_append inner rest)
      (call.pointer :: call.machine.stack)
    exact ⟨top, (stack_of_append_cons h hcall).trans htop⟩
  underflow_iff := result_eq_emptyStack_iff

end Machine

end TinyAsm

import TinyAsm.Proofs.Machine.History

/-!
# Calls and returns as brackets

In what a run has executed, a call is an opening bracket and a return is a closing one; all
other instructions are text between them. This module matches the brackets of a list of
moments, and knows nothing of the stack of the machine:

* `Balanced es` — every call in `es` is matched by a return in `es`, and conversely;
* `Unmatched es places` — no return in `es` is without a call, and the calls that no return
  has matched stand at `places`, the oldest first.

The second relation is described by what one more instruction does to it (`Unmatched.concat`
and its siblings; for a return, `Unmatched.exists_call` finds the call that it matches).

A stack that keeps the place of every call and drops one for every return computes the
unmatched calls: `adjust` is what one instruction does to it. Through balanced lists it
comes out as it went in (`Balanced.foldl_adjust`), and inside of them it only grows
(`Balanced.exists_foldl_adjust_eq_append`). That there is only one list of unmatched calls
follows (`Unmatched.unique`).
-/

namespace TinyAsm

namespace Machine

/-- The moment is an opening bracket. -/
def Moment.isCall (e : Moment) : Bool :=
  match e.instruction with
  | .call _ => true
  | _ => false

/-- The moment is a closing bracket. -/
def Moment.isRet (e : Moment) : Bool :=
  match e.instruction with
  | .ret => true
  | _ => false

theorem Moment.isRet_iff {e : Moment} : e.isRet = true ↔ e.instruction = .ret := by
  unfold isRet
  cases e.instruction <;> simp

theorem Moment.isRet_eq_false_of_isCall {e : Moment} (h : e.isCall = true) :
    e.isRet = false := by
  unfold isCall at h
  unfold isRet
  cases hi : e.instruction <;> simp_all

/-- **Brackets that match**: nothing, an instruction that is no bracket, a call and a return
around brackets that match, or one after the other. -/
inductive Balanced : List Moment → Prop where
  | nil : Balanced []
  | plain {e : Moment} (hcall : e.isCall = false) (hret : e.isRet = false) : Balanced [e]
  | nested {call ret : Moment} {es : List Moment} (hcall : call.isCall = true)
      (inner : Balanced es) (hret : ret.isRet = true) : Balanced (call :: es ++ [ret])
  | append {es es' : List Moment} (left : Balanced es) (right : Balanced es') :
      Balanced (es ++ es')

/-- **The calls that no return has matched**, by their places, the oldest first. Between any
two of them, before the first and after the last, the brackets match. -/
inductive Unmatched : List Moment → List Word → Prop where
  | balanced {es : List Moment} (h : Balanced es) : Unmatched es []
  | call {es inner : List Moment} {places : List Word} {call : Moment}
      (before : Unmatched es places) (hcall : call.isCall = true) (between : Balanced inner) :
      Unmatched (es ++ call :: inner) (places ++ [call.pointer])

variable {es es' inner : List Moment} {e : Moment} {places places' : List Word} {place : Word}

/-! ### One more instruction -/

/-- Brackets that match leave the unmatched calls as they are. -/
theorem Unmatched.append_balanced (h : Unmatched es places) (h' : Balanced es') :
    Unmatched (es ++ es') places := by
  cases h with
  | balanced h => exact .balanced (.append h h')
  | call before hcall between =>
    -- They come behind the last unmatched call, and belong to what has matched since.
    rw [List.append_assoc, List.cons_append]
    exact .call before hcall (.append between h')

theorem Unmatched.concat (h : Unmatched es places) (hcall : e.isCall = false)
    (hret : e.isRet = false) : Unmatched (es ++ [e]) places :=
  h.append_balanced (.plain hcall hret)

theorem Unmatched.concat_call (h : Unmatched es places) (hcall : e.isCall = true) :
    Unmatched (es ++ [e]) (places ++ [e.pointer]) :=
  .call h hcall .nil

/-- The last of the unmatched calls is followed by brackets that match. -/
theorem Unmatched.exists_call (h : Unmatched es (places ++ [place])) :
    ∃ before call inner, es = before ++ call :: inner ∧ call.isCall = true ∧
      call.pointer = place ∧ Balanced inner ∧ Unmatched before places := by
  -- The list of places has to be a variable for the case analysis.
  generalize hall : places ++ [place] = all at h
  cases h with
  | balanced h => exact absurd hall (List.append_ne_nil_of_right_ne_nil _ (List.cons_ne_nil _ _))
  | @call before inner places call hbefore hcall hinner =>
    obtain ⟨rfl, hplace⟩ := List.append_inj' hall rfl
    exact ⟨before, call, inner, rfl, hcall, (List.singleton_inj.1 hplace).symm, hinner, hbefore⟩

/-- A return matches the last of the unmatched calls. -/
theorem Unmatched.concat_ret (h : Unmatched es (places ++ [place])) (hret : e.isRet = true) :
    Unmatched (es ++ [e]) places := by
  obtain ⟨before, call, inner, rfl, hcall, -, hinner, hbefore⟩ := h.exists_call
  rw [List.append_assoc]
  -- The call, what has matched since, and the return are brackets that match.
  exact hbefore.append_balanced (.nested hcall hinner hret)

theorem Unmatched.balanced_of_nil (h : Unmatched es []) : Balanced es := by
  generalize hall : ([] : List Word) = all at h
  cases h with
  | balanced h => exact h
  | call => exact absurd hall.symm (List.append_ne_nil_of_right_ne_nil _ (List.cons_ne_nil _ _))

/-! ### A stack of places -/

/-- What an instruction does to a stack that keeps the places of calls, the latest on top. -/
def adjust (stack : List Word) (e : Moment) : List Word :=
  if e.isCall then e.pointer :: stack else if e.isRet then stack.tail else stack

theorem adjust_of_isCall {stack : List Word} (h : e.isCall = true) :
    adjust stack e = e.pointer :: stack := by
  rw [adjust, if_pos h]

theorem adjust_of_isRet {stack : List Word} (h : e.isRet = true) :
    adjust stack e = stack.tail := by
  have hcall : ¬e.isCall = true := fun hcall => by
    rw [Moment.isRet_eq_false_of_isCall hcall] at h
    contradiction
  rw [adjust, if_neg hcall, if_pos h]

theorem adjust_of_plain {stack : List Word} (hcall : e.isCall = false)
    (hret : e.isRet = false) : adjust stack e = stack := by
  rw [adjust, if_neg (Bool.eq_false_iff.1 hcall), if_neg (Bool.eq_false_iff.1 hret)]

/-- **Brackets that match leave the stack as it was.** -/
theorem Balanced.foldl_adjust (h : Balanced es) (stack : List Word) :
    es.foldl adjust stack = stack := by
  induction h generalizing stack with
  | nil => rfl
  | plain hcall hret =>
    rw [List.foldl_cons, List.foldl_nil, adjust_of_plain hcall hret]
  | nested hcall _ hret ih =>
    -- The place of the call is put on the stack, stays there, and is taken off again.
    rw [List.cons_append, List.foldl_cons, List.foldl_append, ih, List.foldl_cons,
      List.foldl_nil, adjust_of_isRet hret, adjust_of_isCall hcall, List.tail_cons]
  | append _ _ ih ih' => rw [List.foldl_append, ih, ih']

/-- **Inside of brackets that match, the stack only grows.** -/
theorem Balanced.exists_foldl_adjust_eq_append (h : Balanced es) (hstart : es' <+: es)
    (stack : List Word) :
    ∃ top, es'.foldl adjust stack = top ++ stack := by
  -- The induction is on how the whole list matches; in each case the front ends in some part of
  -- it.
  induction h generalizing es' stack with
  | nil =>
    obtain rfl := List.prefix_nil.1 hstart
    exact ⟨[], rfl⟩
  | plain hcall hret =>
    -- Either nothing was executed yet, or the whole list.
    rcases List.prefix_cons_iff.1 hstart with rfl | ⟨rest, rfl, hrest⟩
    · exact ⟨[], rfl⟩
    · obtain rfl := List.prefix_nil.1 hrest
      exact ⟨[], (Balanced.plain hcall hret).foldl_adjust stack⟩
  | @nested call ret es hcall inner hret ih =>
    rcases List.prefix_concat_iff.1 hstart with rfl | hstart
    · exact ⟨[], (Balanced.nested hcall inner hret).foldl_adjust stack⟩
    · rcases List.prefix_cons_iff.1 hstart with rfl | ⟨rest, rfl, hrest⟩
      · exact ⟨[], rfl⟩
      · -- Between the two brackets, the place of the call is below whatever is added.
        obtain ⟨top, htop⟩ := ih hrest (call.pointer :: stack)
        refine ⟨top ++ [call.pointer], ?_⟩
        rw [List.foldl_cons, adjust_of_isCall hcall, htop, List.append_assoc,
          List.singleton_append]
  | @append left right hleft _ ih ih' =>
    rcases List.prefix_or_prefix_of_prefix hstart (List.prefix_append left right) with h | h
    · exact ih h stack
    · -- The first part is over and has left the stack as it was.
      obtain ⟨rest, rfl⟩ := h
      rw [List.foldl_append, hleft.foldl_adjust]
      exact ih' ((List.prefix_append_right_inj left).1 hstart) stack

/-- The stack holds the unmatched calls, the latest on top. -/
theorem Unmatched.foldl_adjust (h : Unmatched es places) :
    es.foldl adjust [] = places.reverse := by
  induction h with
  | balanced h => exact h.foldl_adjust []
  | @call es inner places call _ hcall hinner ih =>
    calc (es ++ call :: inner).foldl adjust []
        = inner.foldl adjust (adjust places.reverse call) := by
          rw [List.foldl_append, List.foldl_cons, ih]
      _ = call.pointer :: places.reverse := by
          rw [hinner.foldl_adjust, adjust_of_isCall hcall]
      _ = (places ++ [call.pointer]).reverse := by
          rw [List.reverse_append, List.reverse_singleton, List.singleton_append]

/-- **There is one way to match brackets**: a list of moments has one list of unmatched
calls. -/
theorem Unmatched.unique (h : Unmatched es places) (h' : Unmatched es places') :
    places = places' := by
  -- Both are what the one stack holds in the end.
  have heq : places.reverse = places'.reverse := h.foldl_adjust.symm.trans h'.foldl_adjust
  exact List.reverse_inj.1 heq

end Machine

end TinyAsm

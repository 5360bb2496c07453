import TinyAsm.Machine.Run

/-!
# What an instruction can do

`Machine.execute` is a program in the monad of actions. This module says once what that
program comes to, so that no later proof opens the monad:

* `Effect p m i m'` — the instruction `i` can be executed, and takes the machine `m` to `m'`;
* `Meets p m i f` — the instruction `i` cannot be executed, for the reason `f`.

`execute_eq_ok_iff` and `execute_eq_error_iff` state that these are all the results there
are. The second one also says that a failed instruction leaves the machine as it found it,
because every read of an instruction stands before its only write.
-/

namespace TinyAsm

namespace Machine

open TinyAsm.Action

/-- **What an instruction does** when it can be executed: one constructor for each
instruction, and two for a conditional jump. -/
inductive Effect (p : Program) (m : Machine) : Instruction → Machine → Prop where
  | mov {target : String} {source : Operand} {y : Word} (hy : m.value source = .ok y) :
      Effect p m (.mov target source) (m.store target y)
  | inc {target : String} {x : Word} (hx : m.register target = .ok x) :
      Effect p m (.inc target) (m.store target (x + 1))
  | dec {target : String} {x : Word} (hx : m.register target = .ok x) :
      Effect p m (.dec target) (m.store target (x - 1))
  | arith {op : ArithOp} {target : String} {source : Operand} {x y z : Word}
      (hx : m.register target = .ok x) (hy : m.value source = .ok y)
      (hz : op.apply x y = .ok z) :
      Effect p m (.arith op target source) (m.store target z)
  | cmp {left right : Operand} {x y : Word} (hx : m.value left = .ok x)
      (hy : m.value right = .ok y) :
      Effect p m (.cmp left right) { m with comparison := some (x, y) }
  | jmp {label : String} {position : Word} (hl : p.position label = .ok position) :
      Effect p m (.jmp label) (m.goto position)
  | taken {condition : Condition} {label : String} {x y position : Word}
      (hc : m.compared = .ok (x, y)) (hh : condition.holds x y = true)
      (hl : p.position label = .ok position) :
      Effect p m (.jumpIf condition label) (m.goto position)
  | untaken {condition : Condition} {label : String} {x y : Word}
      (hc : m.compared = .ok (x, y)) (hh : condition.holds x y = false) :
      Effect p m (.jumpIf condition label) m
  | call {label : String} {position : Word} (hl : p.position label = .ok position) :
      Effect p m (.call label) (m.enter position)
  | ret {position : Word} {stack : List Word} (hs : m.stack = position :: stack) :
      Effect p m .ret ({ m with stack := stack }.goto position)
  | msg {parts : List MessagePart} {texts : List String}
      (ht : parts.mapM m.render = .ok texts) :
      Effect p m (.msg parts) { m with output := String.join texts }
  | halt : Effect p m .halt { m with halted := true }

/-- **Why an instruction cannot be executed**: one constructor for each read that can
fail, together with the reads before it. -/
inductive Meets (p : Program) (m : Machine) : Instruction → Fault → Prop where
  | mov {target : String} {source : Operand} {f : Fault} (hy : m.value source = .error f) :
      Meets p m (.mov target source) f
  | inc {target : String} {f : Fault} (hx : m.register target = .error f) :
      Meets p m (.inc target) f
  | dec {target : String} {f : Fault} (hx : m.register target = .error f) :
      Meets p m (.dec target) f
  | arithTarget {op : ArithOp} {target : String} {source : Operand} {f : Fault}
      (hx : m.register target = .error f) :
      Meets p m (.arith op target source) f
  | arithSource {op : ArithOp} {target : String} {source : Operand} {x : Word} {f : Fault}
      (hx : m.register target = .ok x) (hy : m.value source = .error f) :
      Meets p m (.arith op target source) f
  | arithApply {op : ArithOp} {target : String} {source : Operand} {x y : Word} {f : Fault}
      (hx : m.register target = .ok x) (hy : m.value source = .ok y)
      (hz : op.apply x y = .error f) :
      Meets p m (.arith op target source) f
  | cmpLeft {left right : Operand} {f : Fault} (hx : m.value left = .error f) :
      Meets p m (.cmp left right) f
  | cmpRight {left right : Operand} {x : Word} {f : Fault} (hx : m.value left = .ok x)
      (hy : m.value right = .error f) :
      Meets p m (.cmp left right) f
  | jmp {label : String} {f : Fault} (hl : p.position label = .error f) :
      Meets p m (.jmp label) f
  | jumpCompared {condition : Condition} {label : String} {f : Fault}
      (hc : m.compared = .error f) :
      Meets p m (.jumpIf condition label) f
  | jumpLabel {condition : Condition} {label : String} {x y : Word} {f : Fault}
      (hc : m.compared = .ok (x, y)) (hh : condition.holds x y = true)
      (hl : p.position label = .error f) :
      Meets p m (.jumpIf condition label) f
  | call {label : String} {f : Fault} (hl : p.position label = .error f) :
      Meets p m (.call label) f
  | ret (hs : m.stack = []) : Meets p m .ret .emptyStack
  | msg {parts : List MessagePart} {f : Fault} (ht : parts.mapM m.render = .error f) :
      Meets p m (.msg parts) f

variable {p : Program} {m m' : Machine} {i : Instruction} {f : Fault}

/-! ### Success -/

/-- **There are no other effects.** The actions of each instruction are taken apart one after the
other, and none but the last one has changed the machine. -/
theorem Effect.of_execute (h : execute p i m = .ok () m') : Effect p m i m' := by
  cases i with
  | mov target source =>
    simp only [execute, ok_bind_iff, ok_look_iff, ok_modify_iff] at h
    obtain ⟨y, _, ⟨hy, rfl⟩, rfl⟩ := h
    exact .mov hy
  | inc target =>
    simp only [execute, ok_bind_iff, ok_look_iff, ok_modify_iff] at h
    obtain ⟨x, _, ⟨hx, rfl⟩, rfl⟩ := h
    exact .inc hx
  | dec target =>
    simp only [execute, ok_bind_iff, ok_look_iff, ok_modify_iff] at h
    obtain ⟨x, _, ⟨hx, rfl⟩, rfl⟩ := h
    exact .dec hx
  | arith op target source =>
    simp only [execute, ok_bind_iff, ok_look_iff, ok_modify_iff] at h
    obtain ⟨x, _, ⟨hx, rfl⟩, y, _, ⟨hy, rfl⟩, z, _, ⟨hz, rfl⟩, rfl⟩ := h
    exact .arith hx hy hz
  | cmp left right =>
    simp only [execute, ok_bind_iff, ok_look_iff, ok_modify_iff] at h
    obtain ⟨x, _, ⟨hx, rfl⟩, y, _, ⟨hy, rfl⟩, rfl⟩ := h
    exact .cmp hx hy
  | jmp label =>
    simp only [execute, ok_bind_iff, ok_look_iff, ok_modify_iff] at h
    obtain ⟨position, _, ⟨hl, rfl⟩, rfl⟩ := h
    exact .jmp hl
  | jumpIf condition label =>
    simp only [execute, ok_bind_iff, ok_look_iff] at h
    obtain ⟨⟨x, y⟩, _, ⟨hc, rfl⟩, h⟩ := h
    -- The label is looked up only if the jump is taken.
    cases hh : condition.holds x y with
    | true =>
      simp only [hh, if_true, ok_bind_iff, ok_look_iff, ok_modify_iff] at h
      obtain ⟨position, _, ⟨hl, rfl⟩, rfl⟩ := h
      exact .taken hc hh hl
    | false =>
      simp only [hh, Bool.false_eq_true, if_false, ok_pure_iff, true_and] at h
      subst h
      exact .untaken hc hh
  | call label =>
    simp only [execute, ok_bind_iff, ok_look_iff, ok_modify_iff] at h
    obtain ⟨position, _, ⟨hl, rfl⟩, rfl⟩ := h
    exact .call hl
  | ret =>
    -- The only read that changes the machine: the place is taken off the stack.
    simp only [execute, ok_bind_iff, ok_pop_iff, ok_modify_iff] at h
    obtain ⟨position, _, ⟨stack, hs, rfl⟩, rfl⟩ := h
    exact .ret hs
  | msg parts =>
    simp only [execute, ok_bind_iff, ok_look_iff, ok_modify_iff] at h
    obtain ⟨texts, _, ⟨ht, rfl⟩, rfl⟩ := h
    exact .msg ht
  | halt =>
    simp only [execute, ok_modify_iff] at h
    subst h
    exact .halt

/-- **Every effect is one**: where the reads succeed, the write behind them takes place. -/
theorem Effect.execute_eq (h : Effect p m i m') : execute p i m = .ok () m' := by
  -- The reads of the constructor are carried out one by one, and then the write.
  cases h with
  | mov hy => rw [execute, look_bind_of_ok hy]; rfl
  | inc hx => rw [execute, look_bind_of_ok hx]; rfl
  | dec hx => rw [execute, look_bind_of_ok hx]; rfl
  | arith hx hy hz =>
    rw [execute, look_bind_of_ok hx, look_bind_of_ok hy, look_bind_of_ok hz]; rfl
  | cmp hx hy => rw [execute, look_bind_of_ok hx, look_bind_of_ok hy]; rfl
  | jmp hl => rw [execute, look_bind_of_ok hl]; rfl
  | taken hc hh hl =>
    rw [execute, look_bind_of_ok hc]
    simp only [hh, if_true]
    rw [look_bind_of_ok hl]; rfl
  | untaken hc hh =>
    rw [execute, look_bind_of_ok hc]
    simp only [hh, Bool.false_eq_true, if_false]; rfl
  | call hl => rw [execute, look_bind_of_ok hl]; rfl
  | ret hs => rw [execute, pop_bind_of_cons hs]; rfl
  | msg ht => rw [execute, look_bind_of_ok ht]; rfl
  | halt => rfl

/-- An instruction succeeds exactly with the effects of its kind. -/
theorem execute_eq_ok_iff : execute p i m = .ok () m' ↔ Effect p m i m' :=
  ⟨Effect.of_execute, Effect.execute_eq⟩

/-! ### Failure -/

/-- **There are no other faults**, and the machine is left as it was: a write never fails, and no
read comes behind one. -/
theorem Meets.of_execute (h : execute p i m = .error f m') : m' = m ∧ Meets p m i f := by
  cases i with
  | mov target source =>
    simp only [execute, error_bind_modify_iff, error_look_iff] at h
    exact ⟨h.2.symm, .mov h.1⟩
  | inc target =>
    simp only [execute, error_bind_modify_iff, error_look_iff] at h
    exact ⟨h.2.symm, .inc h.1⟩
  | dec target =>
    simp only [execute, error_bind_modify_iff, error_look_iff] at h
    exact ⟨h.2.symm, .dec h.1⟩
  | arith op target source =>
    simp only [execute, error_bind_iff, error_look_iff, ok_look_iff, modify_ne_error, and_false,
      exists_false, or_false] at h
    -- The target is read first, then the source, and only then the two are combined.
    rcases h with ⟨hx, rfl⟩ | ⟨x, _, ⟨hx, rfl⟩, ⟨hy, rfl⟩ | ⟨y, _, ⟨hy, rfl⟩, hz, rfl⟩⟩
    · exact ⟨rfl, .arithTarget hx⟩
    · exact ⟨rfl, .arithSource hx hy⟩
    · exact ⟨rfl, .arithApply hx hy hz⟩
  | cmp left right =>
    simp only [execute, error_bind_iff, error_look_iff, ok_look_iff, modify_ne_error, and_false,
      exists_false, or_false] at h
    rcases h with ⟨hx, rfl⟩ | ⟨x, _, ⟨hx, rfl⟩, hy, rfl⟩
    · exact ⟨rfl, .cmpLeft hx⟩
    · exact ⟨rfl, .cmpRight hx hy⟩
  | jmp label =>
    simp only [execute, error_bind_modify_iff, error_look_iff] at h
    exact ⟨h.2.symm, .jmp h.1⟩
  | jumpIf condition label =>
    simp only [execute, error_bind_iff, error_look_iff, ok_look_iff] at h
    -- Without a comparison the label is not even looked up.
    rcases h with ⟨hc, rfl⟩ | ⟨⟨x, y⟩, _, ⟨hc, rfl⟩, h⟩
    · exact ⟨rfl, .jumpCompared hc⟩
    · cases hh : condition.holds x y with
      | true =>
        simp only [hh, if_true, error_bind_modify_iff, error_look_iff] at h
        exact ⟨h.2.symm, .jumpLabel hc hh h.1⟩
      | false =>
        -- A jump that is not taken does nothing that could fail.
        simp only [hh, Bool.false_eq_true, if_false] at h
        exact absurd h pure_ne_error
  | call label =>
    simp only [execute, error_bind_modify_iff, error_look_iff] at h
    exact ⟨h.2.symm, .call h.1⟩
  | ret =>
    -- An empty stack is not changed by the attempt to take a place off it.
    simp only [execute, error_bind_modify_iff, error_pop_iff] at h
    obtain ⟨hs, rfl, rfl⟩ := h
    exact ⟨rfl, .ret hs⟩
  | msg parts =>
    simp only [execute, error_bind_modify_iff, error_look_iff] at h
    exact ⟨h.2.symm, .msg h.1⟩
  | halt => exact absurd h modify_ne_error

/-- **Every fault is met**: the reads before it succeed, and it ends the instruction. -/
theorem Meets.execute_eq (h : Meets p m i f) : execute p i m = .error f m := by
  -- Here the last read of the constructor is the one that fails.
  cases h with
  | mov hy => rw [execute, look_bind_of_error hy]
  | inc hx => rw [execute, look_bind_of_error hx]
  | dec hx => rw [execute, look_bind_of_error hx]
  | arithTarget hx => rw [execute, look_bind_of_error hx]
  | arithSource hx hy => rw [execute, look_bind_of_ok hx, look_bind_of_error hy]
  | arithApply hx hy hz =>
    rw [execute, look_bind_of_ok hx, look_bind_of_ok hy, look_bind_of_error hz]
  | cmpLeft hx => rw [execute, look_bind_of_error hx]
  | cmpRight hx hy => rw [execute, look_bind_of_ok hx, look_bind_of_error hy]
  | jmp hl => rw [execute, look_bind_of_error hl]
  | jumpCompared hc => rw [execute, look_bind_of_error hc]
  | jumpLabel hc hh hl =>
    rw [execute, look_bind_of_ok hc]
    simp only [hh, if_true]
    rw [look_bind_of_error hl]
  | call hl => rw [execute, look_bind_of_error hl]
  | ret hs => rw [execute, pop_bind_of_nil hs]
  | msg ht => rw [execute, look_bind_of_error ht]

/-- **A failed instruction changes nothing**, and it fails exactly for the reasons of its
kind. -/
theorem execute_eq_error_iff : execute p i m = .error f m' ↔ m' = m ∧ Meets p m i f := by
  constructor
  · exact Meets.of_execute
  · rintro ⟨rfl, h⟩
    exact h.execute_eq

end Machine

end TinyAsm

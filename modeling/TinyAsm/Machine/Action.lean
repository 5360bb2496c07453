import TinyAsm.Machine.Basic

/-!
# Actions of the machine

An action changes the machine and gives a result, or it meets a fault. A fault ends the
action and undoes nothing: the machine stays as it has become by that time.

The lemmas `ok_bind_iff` and `error_bind_iff` say when a sequence of actions succeeds and
when it fails. With the lemmas on `look`, `pop` and `modify`, they replace the definition
of the monad in proofs.
-/

namespace TinyAsm

/-- What a machine does on the way to a result. -/
abbrev Action := EStateM Fault Machine

namespace Action

variable {α β : Type} {m m' : Machine} {e : Fault}

/-- Reads the machine. -/
def look (f : Machine → Except Fault α) : Action α := fun m =>
  match f m with
  | .ok x => .ok x m
  | .error e => .error e m

/-- Takes the place kept last off the stack. -/
def pop : Action Word := fun m =>
  match m.stack with
  | position :: stack => .ok position { m with stack := stack }
  | [] => .error .emptyStack m

/-! ### Success and failure -/

/-- A sequence succeeds if both of its actions do, one behind the other. -/
theorem ok_bind_iff {x : Action α} {f : α → Action β} {b : β} :
    (x >>= f) m = .ok b m' ↔ ∃ a m₁, x m = .ok a m₁ ∧ f a m₁ = .ok b m' := by
  simp only [bind, EStateM.bind]
  cases x m with
  | ok a m₁ => simp [and_assoc]
  | error e m₁ => simp

/-- A sequence fails where its first action fails or, behind that, where its second one
does. -/
theorem error_bind_iff {x : Action α} {f : α → Action β} :
    (x >>= f) m = .error e m' ↔
      x m = .error e m' ∨ ∃ a m₁, x m = .ok a m₁ ∧ f a m₁ = .error e m' := by
  simp only [bind, EStateM.bind]
  cases x m with
  | ok a m₁ => simp [and_assoc]
  | error e m₁ => simp

@[simp] theorem ok_pure_iff {a b : α} :
    (pure a : Action α) m = .ok b m' ↔ a = b ∧ m = m' := by
  simp [pure, EStateM.pure]

@[simp] theorem pure_ne_error {a : α} : (pure a : Action α) m ≠ .error e m' := by
  simp [pure, EStateM.pure]

@[simp] theorem ok_modify_iff {f : Machine → Machine} {u : Unit} :
    (modify f : Action Unit) m = .ok u m' ↔ f m = m' := by
  change EStateM.Result.ok () (f m) = .ok u m' ↔ f m = m'
  simp

@[simp] theorem modify_ne_error {f : Machine → Machine} :
    (modify f : Action Unit) m ≠ .error e m' :=
  nofun

/-- Writing after a read adds no way to fail. -/
theorem error_bind_modify_iff {x : Action α} {g : α → Machine → Machine} :
    (x >>= fun a => (modify (g a) : Action Unit)) m = .error e m' ↔ x m = .error e m' := by
  simp only [error_bind_iff, modify_ne_error, and_false, exists_false, or_false]

/-- Reading leaves the machine as it is. -/
@[simp] theorem ok_look_iff {f : Machine → Except Fault α} {a : α} :
    look f m = .ok a m' ↔ f m = .ok a ∧ m = m' := by
  unfold look
  split <;> simp_all

@[simp] theorem error_look_iff {f : Machine → Except Fault α} :
    look f m = .error e m' ↔ f m = .error e ∧ m = m' := by
  unfold look
  split <;> simp_all

/-- Only the top of the stack is taken off. -/
theorem ok_pop_iff {position : Word} :
    pop m = .ok position m' ↔
      ∃ stack, m.stack = position :: stack ∧ { m with stack := stack } = m' := by
  unfold pop
  split <;> simp_all [and_assoc]

theorem error_pop_iff : pop m = .error e m' ↔ m.stack = [] ∧ .emptyStack = e ∧ m = m' := by
  unfold pop
  split <;> simp_all

/-! ### Going on after a read -/

theorem look_bind_of_ok {f : Machine → Except Fault α} {g : α → Action β} {x : α}
    (h : f m = .ok x) : (look f >>= g) m = g x m := by
  simp only [bind, EStateM.bind, look, h]

theorem look_bind_of_error {f : Machine → Except Fault α} {g : α → Action β}
    (h : f m = .error e) : (look f >>= g) m = .error e m := by
  simp only [bind, EStateM.bind, look, h]

theorem pop_bind_of_cons {g : Word → Action β} {position : Word} {stack : List Word}
    (h : m.stack = position :: stack) : (pop >>= g) m = g position { m with stack := stack } := by
  simp only [bind, EStateM.bind, pop, h]

theorem pop_bind_of_nil {g : Word → Action β} (h : m.stack = []) :
    (pop >>= g) m = .error .emptyStack m := by
  simp only [bind, EStateM.bind, pop, h]

end Action

end TinyAsm

/-!
# Results of computations that can fail

When a sequence of computations in `Except` succeeds, and when it fails. These lemmas
replace the definition of the monad in proofs, as those of `TinyAsm.Machine.Action` do for
actions of the machine.
-/

namespace Except

variable {ε α β : Type} {x : Except ε α} {f : α → Except ε β} {e : ε}

/-- A sequence succeeds if both of its parts do, one behind the other. -/
theorem bind_eq_ok_iff {b : β} : x >>= f = .ok b ↔ ∃ a, x = .ok a ∧ f a = .ok b := by
  cases x with
  | ok a => simp [bind, Except.bind]
  | error e => simp [bind, Except.bind]

/-- A sequence fails where its first part fails or, behind that, where its second one does. -/
theorem bind_eq_error_iff :
    x >>= f = .error e ↔ x = .error e ∨ ∃ a, x = .ok a ∧ f a = .error e := by
  cases x with
  | ok a => simp [bind, Except.bind]
  | error e => simp [bind, Except.bind]

@[simp] theorem pure_eq_ok_iff {a b : α} : (pure a : Except ε α) = .ok b ↔ a = b := by
  simp [pure, Except.pure]

@[simp] theorem pure_ne_error {a : α} : (pure a : Except ε α) ≠ .error e := by
  simp [pure, Except.pure]

/-- A step that cannot fail adds no way to fail. -/
theorem bind_pure_eq_error_iff {g : α → β} :
    (x >>= fun a => pure (g a)) = .error e ↔ x = .error e := by
  simp only [bind_eq_error_iff, pure_ne_error, and_false, exists_false, or_false]

theorem map_eq_ok_iff {g : α → β} {b : β} : g <$> x = .ok b ↔ ∃ a, x = .ok a ∧ g a = b := by
  cases x with
  | ok a => simp [Functor.map, Except.map]
  | error e => simp [Functor.map, Except.map]

/-- An error passes through unchanged. -/
theorem map_eq_error_iff {g : α → β} : g <$> x = .error e ↔ x = .error e := by
  cases x with
  | ok a => simp [Functor.map, Except.map]
  | error e => simp [Functor.map, Except.map]

theorem mapError_eq_ok_iff {ε' : Type} {g : ε → ε'} {a : α} :
    x.mapError g = .ok a ↔ x = .ok a := by
  cases x with
  | ok b =>
    show (Except.ok b : Except ε' α) = .ok a ↔ (Except.ok b : Except ε α) = .ok a
    rw [Except.ok.injEq, Except.ok.injEq]
  | error e => exact iff_of_false nofun nofun

/-- A list of computations fails where one of them does. -/
theorem exists_of_mapM_eq_error {xs : List α} (h : xs.mapM f = .error e) :
    ∃ x ∈ xs, f x = .error e := by
  induction xs with
  | nil => exact absurd h pure_ne_error
  | cons x xs ih =>
    rw [List.mapM_cons, bind_eq_error_iff] at h
    -- The first computation fails, or it succeeds and one of the others fails.
    rcases h with hx | ⟨y, -, hxs⟩
    · exact ⟨x, List.mem_cons_self, hx⟩
    · obtain ⟨x', hmem, hx'⟩ := ih (bind_pure_eq_error_iff.1 hxs)
      exact ⟨x', List.mem_cons_of_mem x hmem, hx'⟩

end Except

import TinyAsm.Proofs.Machine.Turn

/-!
# Interrupting a run

A run that stopped at its step limit can be taken up again under a higher one, and comes to
what it would have come to without the interruption (`run_resume`). A run that stopped for
any other reason has nothing left to do, and stops there again.

Both come down to the same two facts about single turns. A turn or an end that the lower limit
allows is one under the higher limit (`Turn.mono`, `Ends.mono`), and the machine that an end
leaves is one whose run ends at once, with the same result (`Ends.again`). The second fact is
clear for the ends that leave the machine as it was. The one that does not is a pointer that
cannot step forward; it stands on the greatest word, where a program that fits in memory has
no instruction.
-/

namespace TinyAsm

namespace Machine

variable {p : Program} {c c' : Config} {m m' m₁ : Machine} {i : Instruction}
  {r : Except RunError Outcome}

/-! ### A higher limit -/

/-- A turn within a limit is within every higher one. -/
theorem Turn.mono (hle : c.bound ≤ c'.bound) (h : Turn p c m m') : Turn p c' m m' := by
  cases h with
  | intro running fetched within effect next =>
    exact .intro running fetched (Nat.lt_of_lt_of_le within hle) effect next

/-- An end that is not for the limit stays one when the limit is raised. -/
theorem Ends.mono (hle : c.bound ≤ c'.bound) (h : Ends p c m r m')
    (hr : r ≠ .error (.stepLimit c.bound)) : Ends p c' m r m' := by
  cases h with
  | halted halt => exact .halted halt
  | runoff running fetched => exact .runoff running fetched
  -- The one end that a higher limit takes back.
  | limit => exact absurd rfl hr
  | fault running fetched within meets =>
    exact .fault running fetched (Nat.lt_of_lt_of_le within hle) meets
  | overflow running fetched within effect next =>
    exact .overflow running fetched (Nat.lt_of_lt_of_le within hle) effect next

/-- A run that ends for the limit leaves the machine that stood at the head of the turn. -/
theorem Ends.eq_of_stepLimit {n : Nat} (h : Ends p c m (.error (.stepLimit n)) m') :
    m' = m := by
  cases h with
  | limit => rfl

/-- A chain of turns takes nothing away from what the run comes to. -/
theorem run_eq_of_turns (turns : Relation.ReflTransGen (Turn p c) m m') :
    (m.run p c).result = (m'.run p c).result ∧ (m.run p c).machine = (m'.run p c).machine := by
  induction turns with
  | refl => exact ⟨rfl, rfl⟩
  | tail _ turn ih =>
    obtain ⟨hresult, hmachine⟩ := turn.run_eq
    exact ⟨ih.1.trans hresult, ih.2.trans hmachine⟩

/-! ### What an end leaves -/

/-- Only `halt` halts the machine, and it leaves the pointer alone. -/
theorem Effect.halted_eq_or_pointer_eq (h : Effect p m i m₁) :
    m₁.halted = m.halted ∨ m₁.pointer = m.pointer := by
  cases h with
  | halt => exact .inr rfl
  | _ => exact .inl rfl

/-- A program that fits in memory has no instruction at the greatest word. -/
theorem fetch_eq_none_of_next?_eq_none (hsize : p.size < Word.indexCount) {pointer : Word}
    (h : pointer.next? = none) : p.fetch pointer = none := by
  -- Without a next word, the pointer is the greatest one.
  have hmax : pointer.toInt = 9223372036854775807 := by
    rw [Word.next?_eq_none_iff.1 h]
    rfl
  refine Program.fetch_eq_none_iff.2 (.inr ?_)
  unfold Word.indexCount at hsize
  omega

/-- **An end is final**: the machine that it leaves ends its run at once, in the same way. -/
theorem Ends.again (hsize : p.size < Word.indexCount) (h : Ends p c m r m') :
    Ends p c m' r m' := by
  cases h with
  | halted halt => exact .halted halt
  | runoff running fetched => exact .runoff running fetched
  | limit running fetched reached => exact .limit running fetched reached
  | fault running fetched within meets => exact .fault running fetched within meets
  | @overflow i m₁ running fetched within effect next =>
    -- The pointer has been moved to the greatest word, and so this was not a halt.
    have hout : p.fetch m₁.pointer = none := fetch_eq_none_of_next?_eq_none hsize next
    have hhalted : m₁.halted = false := by
      rcases effect.halted_eq_or_pointer_eq with hh | hp
      · rw [hh, running]
      · rw [hp, fetched] at hout
        contradiction
    exact .runoff hhalted hout

/-! ### Runs -/

/-- **An interrupted run can be taken up again.** Running under a limit and then, from the
machine that was left, under the same or a higher limit gives the result and the machine of a
single run under the second limit. So a run that is taken up under its own limit changes
nothing and gives the same result again, and a run that did not end for its limit ends in the
same way under every higher one.

The labels of the program are arbitrary, and so is the machine that the run starts on. -/
theorem run_resume (hsize : p.size < Word.indexCount) (hle : c.bound ≤ c'.bound)
    (m : Machine) :
    (((m.run p c).machine.run p c').result = (m.run p c').result ∧
      ((m.run p c).machine.run p c').machine = (m.run p c').machine) ∧
    (((m.run p c).machine.run p c).result = (m.run p c).result ∧
      ((m.run p c).machine.run p c).machine = (m.run p c).machine) ∧
    ((m.run p c).result ≠ .error (.stepLimit c.bound) →
      (m.run p c').result = (m.run p c).result ∧
        (m.run p c').machine = (m.run p c).machine) := by
  obtain ⟨m₁, turns, ends⟩ := exists_turns_ends p c m
  -- Up to the end of the first run, the run under the higher limit takes the same turns.
  have turns' : Relation.ReflTransGen (Turn p c') m m₁ :=
    Relation.ReflTransGen.mono (fun _ _ turn => Turn.mono hle turn) _ _ turns
  have hsame := run_eq_of_turns turns'
  have hother (hr : (m.run p c).result ≠ .error (.stepLimit c.bound)) :
      (m.run p c').result = (m.run p c).result ∧
        (m.run p c').machine = (m.run p c).machine := by
    obtain ⟨hresult, hmachine⟩ := (ends.mono hle hr).run_eq
    exact ⟨hsame.1.trans hresult, hsame.2.trans hmachine⟩
  refine ⟨?resumed, (ends.again hsize).run_eq, hother⟩
  case resumed =>
    by_cases hr : (m.run p c).result = .error (.stepLimit c.bound)
    · -- The first run ended for its limit, and left the machine at the head of a turn.
      rw [hr] at ends
      rw [ends.eq_of_stepLimit]
      exact ⟨hsame.1.symm, hsame.2.symm⟩
    · -- The first run ended for good: so does the second, and the single run.
      obtain ⟨hresult, hmachine⟩ := hother hr
      rw [hresult, hmachine]
      exact ((ends.again hsize).mono hle hr).run_eq

/-- A run that is interrupted inside a call, and taken up again. -/
theorem run_resume_of_call :
    ∃ (p : Program) (c c' : Config) (m : Machine),
      p = ⟨#[.call "f", .halt, .msg [.text "f"], .ret], (∅ : Table).insert "f" 1⟩ ∧
      c = { stepLimit := some 2 } ∧ c' = {} ∧ m = {} ∧
      p.size < Word.indexCount ∧ c.bound ≤ c'.bound ∧
      (((m.run p c).machine.run p c').result = (m.run p c').result ∧
        ((m.run p c).machine.run p c').machine = (m.run p c').machine) ∧
      (((m.run p c).machine.run p c).result = (m.run p c).result ∧
        ((m.run p c).machine.run p c).machine = (m.run p c).machine) ∧
      ((m.run p c).result ≠ .error (.stepLimit c.bound) →
        (m.run p c').result = (m.run p c).result ∧
          (m.run p c').machine = (m.run p c).machine) := by
  refine ⟨_, _, _, _, rfl, rfl, rfl, rfl, ?size, ?limits, run_resume ?size ?limits {}⟩
  case size => decide
  case limits => decide

end Machine

end TinyAsm

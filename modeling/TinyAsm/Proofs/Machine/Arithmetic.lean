import TinyAsm.Proofs.Machine.Fault
import TinyAsm.Proofs.Word

/-!
# Arithmetic is exact modulo the size of a word

What an instruction computes is the result that the operation has on the integers, wrapped around
to a word. Of a division, this is the quotient rounded down.

* `ArithOp.exact` — the operations on the integers, without words;
* `ArithOp.exists_apply` — the machine's operations give the words that these results wrap around
  to, and fail only for a zero divisor;
* `exactArithmetic` — so what the instructions store is exact, in every state of the machine.
-/

namespace TinyAsm

/-- **The result of an operation on the integers.** A quotient is that of the rational numbers,
rounded down. -/
def ArithOp.exact : ArithOp → Int → Int → Int
  | add, a, b => a + b
  | sub, a, b => a - b
  | mul, a, b => a * b
  | div, a, b => ⌊(a : ℚ) / b⌋

/-- An operation that does not divide by zero gives the word that its exact result wraps around
to. -/
theorem ArithOp.exists_apply {op : ArithOp} {y : Word} (x : Word) (h : ¬(op = div ∧ y = 0)) :
    ∃ z, op.apply x y = .ok z ∧ z.Represents (op.exact x.toInt y.toInt) := by
  cases op with
  | add => exact ⟨x + y, rfl, Word.represents_add x y⟩
  | sub => exact ⟨x - y, rfl, Word.represents_sub x y⟩
  | mul => exact ⟨x * y, rfl, Word.represents_mul x y⟩
  | div =>
    -- What is excluded is a zero divisor, since the operation is a division.
    have hy : y ≠ 0 := fun hy => h ⟨rfl, hy⟩
    obtain ⟨q, hq, hfloor⟩ := Word.exists_floorDiv?_represents x hy
    refine ⟨q, ?_, hfloor⟩
    rw [apply, hq]

namespace Machine

variable {p : Program} {m m' : Machine} {op : ArithOp} {target : String} {source : Operand}
  {x y : Word} {f : Fault}

/-- **Where an operation fails** although there is something to read: a division, by zero. -/
theorem execute_arith_eq_error_iff (hx : m.register target = .ok x)
    (hy : m.value source = .ok y) :
    execute p (.arith op target source) m = .error f m' ↔
      (op = .div ∧ y = 0) ∧ f = .divisionByZero ∧ m' = m := by
  rw [execute_eq_error_iff]
  constructor
  · rintro ⟨rfl, h⟩
    -- Both reads succeed, and so it is the operation that fails.
    cases h with
    | arithTarget hx' =>
      rw [hx] at hx'
      contradiction
    | arithSource _ hy' =>
      rw [hy] at hy'
      contradiction
    | arithApply hx' hy' hz =>
      rw [hx] at hx'
      rw [hy] at hy'
      cases hx'
      cases hy'
      -- The values that were read are `x` and `y`.
      obtain ⟨hop, hzero, hf⟩ := apply_eq_error_iff.1 hz
      exact ⟨⟨hop, hzero⟩, hf, rfl⟩
  · rintro ⟨⟨rfl, rfl⟩, rfl, rfl⟩
    exact ⟨rfl, .arithApply hx hy (apply_eq_error_iff.2 ⟨rfl, rfl, rfl⟩)⟩

/-- **A division of words is exact**: the quotient is rounded down, and then wraps around. -/
structure ExactQuotient (x y : Word) : Prop where
  /-- Nothing is divided by zero. -/
  error_iff : ∀ {f}, ArithOp.div.apply x y = .error f ↔ y = 0 ∧ f = .divisionByZero
  /-- Any other division has a quotient. -/
  represents : y ≠ 0 → ∃ q, ArithOp.div.apply x y = .ok q ∧
    q.Represents ⌊(x.toInt : ℚ) / y.toInt⌋
  /-- The quotient is the one rounded down itself, unless this is too large for a word. -/
  toInt_eq : y ≠ 0 → ¬(x = Int64.minValue ∧ y = -1) →
    ∃ q, ArithOp.div.apply x y = .ok q ∧ q.toInt = ⌊(x.toInt : ℚ) / y.toInt⌋
  least : x = Int64.minValue → y = -1 → ArithOp.div.apply x y = .ok Int64.minValue
  /-- Where one is taken off the quotient that the machine has computed, this does not wrap
  around. -/
  correction : y ≠ 0 → x % y ≠ 0 → ¬(x < 0 ↔ y < 0) →
    ArithOp.div.apply x y = .ok (x / y - 1) ∧ (x / y - 1).toInt = (x / y).toInt - 1

/-- **The arithmetic of a machine is exact**: for a register that holds `x` and an operand with
the value `y`, the instructions store the word that the result on the integers wraps around to. -/
structure ExactArithmetic (p : Program) (m : Machine) (x y : Word) : Prop where
  arith : ∀ {op target source}, m.register target = .ok x → m.value source = .ok y →
    ¬(op = .div ∧ y = 0) → ∃ z, z.Represents (op.exact x.toInt y.toInt) ∧
      execute p (.arith op target source) m = .ok () (m.store target z)
  inc : ∀ {target}, m.register target = .ok x → ∃ z, z.Represents (x.toInt + 1) ∧
    execute p (.inc target) m = .ok () (m.store target z)
  dec : ∀ {target}, m.register target = .ok x → ∃ z, z.Represents (x.toInt - 1) ∧
    execute p (.dec target) m = .ok () (m.store target z)
  /-- There is only one such word. -/
  unique : ∀ {n : Int} {z z' : Word}, z.Represents n → z'.Represents n → z = z'
  /-- A division by zero fails, and no other operation does. -/
  error_iff : ∀ {op target source f m'}, m.register target = .ok x → m.value source = .ok y →
    (execute p (.arith op target source) m = .error f m' ↔
      (op = .div ∧ y = 0) ∧ f = .divisionByZero ∧ m' = m)
  quotient : ExactQuotient x y

/-- **The division of words is exact**, and its correction never wraps around. -/
theorem exactQuotient (x y : Word) : ExactQuotient x y where
  error_iff := by
    intro f
    rw [apply_eq_error_iff, eq_self, true_and]
  represents := fun hy => ArithOp.exists_apply x fun hzero => hy hzero.2
  toInt_eq := by
    intro hy hfits
    obtain ⟨q, hq, hfloor⟩ := Word.exists_floorDiv? hy hfits
    refine ⟨q, ?_, hfloor⟩
    rw [ArithOp.apply, hq]
  least := by
    rintro rfl rfl
    rw [ArithOp.apply, Word.floorDiv?_minValue]
  correction := by
    intro hy hinexact hsigns
    refine ⟨?_, Word.toInt_div_sub_one hy hinexact⟩
    -- A remainder with different signs is the case in which one is taken off.
    rw [ArithOp.apply, Word.floorDiv?, if_neg hy, if_pos ⟨hinexact, hsigns⟩]

/-- Arithmetic is exact in every state of the machine. -/
theorem exactArithmetic (p : Program) (m : Machine) (x y : Word) : ExactArithmetic p m x y where
  arith := by
    intro op target source hx hy hzero
    obtain ⟨z, hz, hexact⟩ := op.exists_apply x hzero
    exact ⟨z, hexact, (Effect.arith hx hy hz).execute_eq⟩
  inc := fun hx => ⟨x + 1, Word.represents_add x 1, (Effect.inc hx).execute_eq⟩
  dec := fun hx => ⟨x - 1, Word.represents_sub x 1, (Effect.dec hx).execute_eq⟩
  unique := Word.Represents.unique
  error_iff := execute_arith_eq_error_iff
  quotient := exactQuotient x y

end Machine

end TinyAsm

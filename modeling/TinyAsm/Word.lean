/-!
# Machine words

Register values, literals, instruction pointers and label positions are all signed
64-bit words. This module names the operations on them that are more than ring
arithmetic:

* `Word.index?` reads a word as a position in a list;
* `Word.before n` is the word just before position `n`, which is how label positions
  are kept;
* `Word.next?` is the following word, if there is one;
* `Word.floorDiv?` is division that rounds toward negative infinity.

Each comes with the lemma that says what it does to the integer `toInt` a word stands
for; proofs about words go through these.
-/

namespace TinyAsm

/-- A signed 64-bit word. Sums, differences and products wrap around. -/
abbrev Word := Int64

namespace Word

/-! ### Positions -/

/-- The position a word denotes: itself, unless it is negative. -/
def index? (w : Word) : Option Nat :=
  if w < 0 then none else some w.toNatClampNeg

/-- A word denotes a position exactly if it stands for that natural number. -/
theorem index?_eq_some_iff {w : Word} {n : Nat} : index? w = some n ↔ w.toInt = n := by
  have h0 : w < 0 ↔ w.toInt < 0 := by simp [Int64.lt_iff_toInt_lt]
  have hn : w.toNatClampNeg = w.toInt.toNat := rfl
  unfold index?
  split <;> rename_i h <;> rw [h0] at h
  · simp; omega
  · simp only [Option.some.injEq, hn]; omega

theorem index?_eq_none_iff {w : Word} : index? w = none ↔ w.toInt < 0 := by
  have h0 : w < 0 ↔ w.toInt < 0 := by simp [Int64.lt_iff_toInt_lt]
  unfold index?
  split <;> simp_all

/-- The number of positions that words denote. -/
def indexCount : Nat := 9223372036854775808

/-- The word just before position `n`; `-1` for the first position. -/
def before (n : Nat) : Word := Int64.ofInt ((n : Int) - 1)

/-- The word before a position does not wrap around, the one before the first
included. -/
theorem toInt_before {n : Nat} (h : n ≤ indexCount) : (before n).toInt = (n : Int) - 1 := by
  unfold indexCount at h
  -- What is left are the two bounds of a word, with their powers written out.
  rw [before, Int64.toInt_ofInt_of_le]
  · rw [show (2 : Int) ^ 63 = 9223372036854775808 from rfl]
    omega
  · rw [show (2 : Int) ^ 63 = 9223372036854775808 from rfl]
    omega

/-- The next word. The greatest word has none. -/
def next? (w : Word) : Option Word :=
  if w = Int64.maxValue then none else some (w + 1)

theorem next?_eq_none_iff {w : Word} : next? w = none ↔ w = Int64.maxValue := by
  unfold next?; split <;> simp_all

/-- The next word is greater by one as an integer; it is not the wrapped sum. -/
theorem next?_eq_some_iff {w v : Word} : next? w = some v ↔ v.toInt = w.toInt + 1 := by
  have hv := v.toInt_lt
  have hw := w.toInt_lt
  have hw' := w.le_toInt
  have hm : (Int64.maxValue).toInt = 2 ^ 63 - 1 := rfl
  unfold next?
  split
  · -- No word stands for the integer behind the greatest one.
    subst w; simp; omega
  · rename_i h
    have h : w.toInt ≠ 2 ^ 63 - 1 := fun h' => h (Int64.toInt_inj.1 (h'.trans hm.symm))
    -- Below the greatest word, the sum does not wrap around.
    have : (w + 1).toInt = w.toInt + 1 := by
      rw [Int64.toInt_add, Int.bmod_eq_of_le] <;> simp <;> omega
    rw [Option.some.injEq, ← Int64.toInt_inj, this]; omega

/-- Stepping forward from before a position leads to the position itself, which is the one
before the next. -/
theorem next?_before {n : Nat} (h : n < indexCount) : (before n).next? = some (before (n + 1)) := by
  rw [next?_eq_some_iff, toInt_before h, toInt_before (Nat.le_of_lt h)]
  omega

/-! ### Division -/

/-- Division rounding toward negative infinity; `none` for a zero divisor. The quotient
of the machine's own division is rounded toward zero, so one is taken off when the
division is inexact and the signs differ. The least word divided by `-1` wraps around
to itself. -/
def floorDiv? (x y : Word) : Option Word :=
  if y = 0 then none
  else if x % y ≠ 0 ∧ ¬(x < 0 ↔ y < 0) then some (x / y - 1)
  else some (x / y)

/-- Division fails for a zero divisor only, and so also the least word can be divided by
`-1`. -/
@[simp] theorem floorDiv?_eq_none_iff {x y : Word} : floorDiv? x y = none ↔ y = 0 := by
  unfold floorDiv?; split
  · simp_all
  · split <;> simp_all

end Word

end TinyAsm

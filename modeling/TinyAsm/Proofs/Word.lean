import Mathlib.Data.Int.ModEq
import Mathlib.Data.Rat.Floor
import TinyAsm.Word

/-!
# Words and the integers they stand for

A word stands for an integer between `-2 ^ 63` and `2 ^ 63`, and every other integer wraps around
to a word.

* `Word.Holds n` — the integer `n` fits a word;
* `Word.Represents w n` — the integer `n` wraps around to the word `w`, and to no other
  (`Represents.unique`);
* `represents_add`, `represents_sub`, `represents_mul` — sums, differences and products are those
  of the integers, wrapped around;
* `exists_floorDiv?_represents` — a quotient is that of the rational numbers, rounded down, and
  then wrapped around;
* `exists_floorDiv?` — unless the least word is divided by `-1`, there is nothing to wrap.

The machine rounds a quotient toward zero, and then takes one off where that is not downward. This
is right because the two ways to round differ by one exactly then (`fdiv_eq_ite_tdiv`), and it does
not wrap around because a divisor that leaves a remainder is at least two (`toInt_div_sub_one`).
-/

namespace TinyAsm.Word

/-- **The integers that fit a word.** -/
def Holds (n : Int) : Prop :=
  -2 ^ 63 ≤ n ∧ n < 2 ^ 63

/-- **The word that an integer wraps around to.** -/
def Represents (w : Word) (n : Int) : Prop :=
  w.toInt ≡ n [ZMOD 2 ^ 64]

variable {w w' x y q : Word} {a b n : Int}

/-! ### Integers that fit -/

theorem holds_toInt (w : Word) : Holds w.toInt :=
  ⟨w.le_toInt, w.toInt_lt⟩

theorem toInt_ofInt_of_holds (h : Holds n) : (Int64.ofInt n).toInt = n :=
  Int64.toInt_ofInt_of_le h.1 h.2

theorem holds_iff : Holds n ↔ Int64.minValue.toInt ≤ n ∧ n ≤ Int64.maxValue.toInt := by
  have hmin : Int64.minValue.toInt = -2 ^ 63 := rfl
  have hmax : Int64.maxValue.toInt = 2 ^ 63 - 1 := rfl
  rw [Holds, hmin, hmax, Int.le_sub_one_iff]

/-! ### Wrapping around -/

theorem represents_of_toInt_eq (h : w.toInt = n.bmod (2 ^ 64)) : w.Represents n := by
  unfold Represents Int.ModEq
  rw [h]
  exact Int.bmod_emod

/-- The word is read off the integer: it stands for the balanced remainder. -/
theorem Represents.bmod_eq (h : w.Represents n) : n.bmod (2 ^ 64) = w.toInt := by
  -- The balanced remainder depends on the remainder only, and that of a word is the word.
  have hmod : w.toInt % (2 ^ 64 : Nat) = n % (2 ^ 64 : Nat) := h
  rw [← Int.emod_bmod, ← hmod, Int.emod_bmod]
  exact Int64.toInt_bmod w

/-- **Only one word** represents an integer. -/
theorem Represents.unique (h : w.Represents n) (h' : w'.Represents n) : w = w' := by
  rw [← Int64.toInt_inj, ← h.bmod_eq, h'.bmod_eq]

/-- An integer that fits a word does not wrap around. -/
theorem Represents.toInt_eq (h : w.Represents n) (hn : Holds n) : w.toInt = n := by
  rw [← h.bmod_eq]
  exact Int.bmod_eq_of_le hn.1 hn.2

theorem represents_of_toInt (h : w.toInt = n) : w.Represents n := by
  rw [Represents, h]

/-- A sum of words is the sum of their integers, wrapped around. The two lemmas after this one say
the same of differences and products. -/
theorem represents_add (x y : Word) : (x + y).Represents (x.toInt + y.toInt) :=
  represents_of_toInt_eq (Int64.toInt_add x y)

theorem represents_sub (x y : Word) : (x - y).Represents (x.toInt - y.toInt) :=
  represents_of_toInt_eq (Int64.toInt_sub x y)

theorem represents_mul (x y : Word) : (x * y).Represents (x.toInt * y.toInt) :=
  represents_of_toInt_eq (Int64.toInt_mul x y)

/-! ### Rounding -/

/-- The quotient of the rational numbers, rounded down, is the one that `Int.fdiv` gives. -/
theorem floor_div_eq_fdiv (a b : Int) : ⌊(a : ℚ) / b⌋ = a.fdiv b := by
  have hnonneg (a : Int) (d : Nat) : ⌊(a : ℚ) / (d : Int)⌋ = a.fdiv d := by
    rw [Int.fdiv_eq_ediv_of_nonneg a (Int.natCast_nonneg d), ← Rat.floor_intCast_div_natCast]
    rfl
  -- Only the quotient of the two signs counts.
  rcases le_total 0 b with hb | hb
  · lift b to Nat using hb
    exact hnonneg a b
  · have hneg : 0 ≤ -b := neg_nonneg.2 hb
    rw [← neg_div_neg_eq, ← Int.cast_neg, ← Int.cast_neg, ← Int.neg_fdiv_neg]
    lift -b to Nat using hneg with d
    exact hnonneg (-a) d

/-- **Rounding toward zero and rounding down** differ by one if the division is inexact and the
signs differ, and not at all otherwise. -/
theorem fdiv_eq_ite_tdiv (a : Int) (hb : b ≠ 0) :
    a.fdiv b = if a.tmod b ≠ 0 ∧ ¬(a < 0 ↔ b < 0) then a.tdiv b - 1 else a.tdiv b := by
  simp only [Int.fdiv_eq_tdiv, Int.dvd_iff_tmod_eq_zero]
  -- `Int.fdiv` takes the sign of the divisor off, which is known in either case.
  rcases lt_or_gt_of_ne hb with hneg | hpos
  · rw [Int.sign_eq_neg_one_of_neg hneg]
    split_ifs <;> omega
  · rw [Int.sign_eq_one_of_pos hpos]
    split_ifs <;> omega

/-! ### Quotients of words -/

theorem toInt_ne_zero_iff : w.toInt ≠ 0 ↔ w ≠ 0 := by
  have h0 : (0 : Word).toInt = 0 := rfl
  rw [ne_eq, ne_eq, ← Int64.toInt_inj, h0]

theorem neg_iff : w < 0 ↔ w.toInt < 0 :=
  Int64.lt_iff_toInt_lt

/-- Only one quotient is not a word. -/
theorem toInt_div (h : ¬(x = Int64.minValue ∧ y = -1)) : (x / y).toInt = x.toInt.tdiv y.toInt := by
  by_cases hx : x = Int64.minValue
  · exact Int64.toInt_div_of_ne_right x y fun hy => h ⟨hx, hy⟩
  · exact Int64.toInt_div_of_ne_left x y hx

/-- **The correction does not wrap around.** -/
theorem toInt_div_sub_one (hy : y ≠ 0) (h : x % y ≠ 0) :
    (x / y - 1).toInt = (x / y).toInt - 1 := by
  rw [← toInt_ne_zero_iff, Int64.toInt_mod] at h
  -- A divisor that leaves a remainder is at least two ...
  have htwo : 2 ≤ y.toInt.natAbs := by
    have hb : y.toInt ≠ 0 := toInt_ne_zero_iff.2 hy
    by_contra hlt
    obtain hone | hone : y.toInt = 1 ∨ y.toInt = -1 := by omega
    · rw [hone, Int.tmod_one] at h
      exact h rfl
    · rw [hone, Int.tmod_neg, Int.tmod_one] at h
      exact h rfl
  have hexact : (x / y).toInt = x.toInt.tdiv y.toInt := by
    refine toInt_div fun hmin => ?_
    rw [hmin.2] at htwo
    contradiction
  -- ... and so the quotient is at most half of what a word can hold.
  have hhalf : (x / y).toInt.natAbs ≤ 2 ^ 62 := by
    calc (x / y).toInt.natAbs = x.toInt.natAbs / y.toInt.natAbs := by
          rw [hexact, Int.natAbs_tdiv]; rfl
      _ ≤ x.toInt.natAbs / 2 := Nat.div_le_div_left htwo Nat.zero_lt_two
      _ ≤ 2 ^ 62 := by
          have hx : Holds x.toInt := holds_toInt x
          unfold Holds at hx
          omega
  -- Taking one off such a quotient does not leave the words.
  have hone : (1 : Word).toInt = 1 := rfl
  refine (represents_sub (x / y) 1).toInt_eq ?_
  unfold Holds
  omega

/-- **A quotient that fits a word** is rounded down. -/
theorem exists_floorDiv? (hy : y ≠ 0) (h : ¬(x = Int64.minValue ∧ y = -1)) :
    ∃ q, floorDiv? x y = some q ∧ q.toInt = ⌊(x.toInt : ℚ) / y.toInt⌋ := by
  have hb : y.toInt ≠ 0 := toInt_ne_zero_iff.2 hy
  -- The machine corrects where the integers differ.
  have hcond : (x % y ≠ 0 ∧ ¬(x < 0 ↔ y < 0)) ↔
      (x.toInt.tmod y.toInt ≠ 0 ∧ ¬(x.toInt < 0 ↔ y.toInt < 0)) := by
    rw [← toInt_ne_zero_iff, Int64.toInt_mod, neg_iff, neg_iff]
  rw [floor_div_eq_fdiv, fdiv_eq_ite_tdiv _ hb, floorDiv?, if_neg hy]
  by_cases hc : x % y ≠ 0 ∧ ¬(x < 0 ↔ y < 0)
  · -- With the correction, and then without it.
    rw [if_pos hc, if_pos (hcond.1 hc)]
    exact ⟨_, rfl, by rw [toInt_div_sub_one hy hc.1, toInt_div h]⟩
  · rw [if_neg hc, if_neg (mt hcond.2 hc)]
    exact ⟨_, rfl, toInt_div h⟩

/-- The quotient that does not fit wraps around to the word that was divided. -/
theorem floorDiv?_minValue : floorDiv? Int64.minValue (-1) = some Int64.minValue := by
  decide

/-- **Every quotient is rounded down and then wraps around.** -/
theorem exists_floorDiv?_represents (x : Word) (hy : y ≠ 0) :
    ∃ q, floorDiv? x y = some q ∧ q.Represents ⌊(x.toInt : ℚ) / y.toInt⌋ := by
  by_cases h : x = Int64.minValue ∧ y = -1
  · -- The exact quotient is `2 ^ 63`, one more than the greatest word.
    obtain ⟨rfl, rfl⟩ := h
    refine ⟨_, floorDiv?_minValue, ?_⟩
    rw [floor_div_eq_fdiv, Represents]
    decide
  · obtain ⟨q, hq, hfloor⟩ := exists_floorDiv? hy h
    exact ⟨q, hq, represents_of_toInt hfloor⟩

end TinyAsm.Word

import TinyAsm.Word

/-!
# Decimal numerals

Integers are written in base ten: an optional sign and at least one ASCII digit. Any
number of leading zeros is read, and none is written.

* `Decimal.natural?` and `Decimal.integer?` read a numeral of any size;
* `Decimal.word?` and `Decimal.count?` also ask that its value fits the 64 bits of a
  word or of an unsigned counter;
* `Decimal.ofWord` writes a word.

`word?_ofWord` states that reading undoes writing.
-/

namespace TinyAsm.Decimal

/-! ### Reading -/

/-- The value of a nonempty run of digits. -/
def natural? (cs : List Char) : Option Nat :=
  if cs ≠ [] ∧ cs.all Char.isDigit then some (Nat.ofDigitChars 10 cs 0) else none

/-- The value of a run of digits with at most one sign before it. -/
def integer? : List Char → Option Int
  | '-' :: cs => (natural? cs).map fun n => -(n : Int)
  | '+' :: cs => (natural? cs).map fun n => (n : Int)
  | cs => (natural? cs).map fun n => (n : Int)

/-- The word a numeral stands for, if its value is one. -/
def word? (cs : List Char) : Option Word :=
  match integer? cs with
  | some n =>
    if Int64.minValue.toInt ≤ n ∧ n ≤ Int64.maxValue.toInt then some (Int64.ofInt n) else none
  | none => none

/-- The value of an unsigned numeral, one `+` allowed before it, that fits 64 bits. -/
def count? (cs : List Char) : Option Nat :=
  let digits := match cs with
    | '+' :: cs => cs
    | cs => cs
  (natural? digits).filter (· < UInt64.size)

/-! ### Writing -/

/-- The numeral of an integer, with a sign only if it is negative. -/
def ofInt : Int → String
  | .ofNat n => n.repr
  | .negSucc n => "-" ++ (n + 1).repr

/-- The numeral of a word. -/
def ofWord (w : Word) : String := ofInt w.toInt

/-! ### Reading what was written -/

/-- The digits of a number are read as this number. -/
theorem natural?_repr (n : Nat) : natural? n.repr.toList = some n := by
  have hd : (Nat.toDigits 10 n).all Char.isDigit := by
    rw [List.all_eq_true]
    exact fun c hc => Nat.isDigit_of_mem_toDigits (by decide) (by decide) hc
  have hn : Nat.toDigits 10 n ≠ [] := Nat.toDigits_ne_nil
  rw [Nat.repr_eq_ofList_toDigits, String.toList_ofList, natural?, if_pos ⟨hn, hd⟩,
    Nat.ofDigitChars_ten_toDigits]

/-- A numeral that starts with a digit is read without a sign. -/
theorem integer?_of_isDigit {c : Char} {cs : List Char} (h : c.isDigit) :
    integer? (c :: cs) = (natural? (c :: cs)).map fun n => (n : Int) := by
  unfold integer?
  split
  · simp_all
  · simp_all
  · rfl

/-- The numeral of an integer, signed if it is negative, is read as that integer. -/
theorem integer?_ofInt (n : Int) : integer? (ofInt n).toList = some n := by
  cases n with
  | ofNat n =>
    -- The numeral starts with a digit, and so there is no sign to be taken off.
    obtain ⟨c, cs, hcs⟩ := List.exists_cons_of_ne_nil (Nat.toDigits_ne_nil (n := n) (b := 10))
    have hr : n.repr.toList = c :: cs := by
      rw [Nat.repr_eq_ofList_toDigits, String.toList_ofList, hcs]
    have hc : c.isDigit := Nat.isDigit_of_mem_toDigits (n := n) (b := 10) (by decide)
      (by decide) (by simp [hcs])
    rw [ofInt, hr, integer?_of_isDigit hc, ← hr, natural?_repr]
    rfl
  | negSucc n =>
    rw [ofInt, String.toList_append]
    simp only [show "-".toList = ['-'] from rfl, List.singleton_append, integer?,
      natural?_repr]
    rfl

/-- **Reading undoes writing.** -/
theorem word?_ofWord (w : Word) : word? (ofWord w).toList = some w := by
  -- A word is in the range that is asked for.
  have h : Int64.minValue.toInt ≤ w.toInt := w.le_toInt
  have h' : w.toInt ≤ Int64.maxValue.toInt := Int.le_of_lt_add_one w.toInt_lt
  simp only [word?, ofWord, integer?_ofInt]
  rw [if_pos ⟨h, h'⟩, Int64.ofInt_toInt]

end TinyAsm.Decimal

import Mathlib.Data.List.Induction
import Mathlib.Data.Nat.Digits.Defs
import TinyAsm.Operand
import TinyAsm.Proofs.Word

/-!
# Numerals and registers

The spelling of an operand is a literal if it is a numeral whose value fits a word, and the name
of a register if it is anything else. This module says what a numeral is without reading it:

* `Decimal.placeValue` — the value of digits by their places;
* `Decimal.Numeral cs n` — the grammar of numerals, with the integer that each one stands for.

`Decimal.word?_eq_some_iff` states that the reader of words accepts this grammar, as far as words
go, and `Operand.exactSpelling` what follows for operands.
-/

namespace TinyAsm

namespace Decimal

/-- A nonempty run of ASCII digits. -/
def Digits (cs : List Char) : Prop :=
  cs ≠ [] ∧ ∀ c ∈ cs, '0' ≤ c ∧ c ≤ '9'

/-- **The value of digits by their places**: the last one counts ones, the one before it tens. -/
def placeValue (cs : List Char) : Nat :=
  Nat.ofDigits 10 (cs.reverse.map fun c => c.toNat - '0'.toNat)

/-- **A numeral and its value**: digits, with at most one sign before them. -/
inductive Numeral : List Char → Int → Prop where
  | unsigned {cs : List Char} (h : Digits cs) : Numeral cs (placeValue cs)
  | plus {cs : List Char} (h : Digits cs) : Numeral ('+' :: cs) (placeValue cs)
  | minus {cs : List Char} (h : Digits cs) : Numeral ('-' :: cs) (-(placeValue cs : Int))

variable {cs : List Char} {c : Char} {k : Nat} {n : Int} {w : Word}

/-! ### Digits -/

theorem isDigit_iff : c.isDigit = true ↔ '0' ≤ c ∧ c ≤ '9' := by
  simp only [Char.isDigit, Bool.and_eq_true, decide_eq_true_eq]
  rfl

theorem digits_iff : Digits cs ↔ cs ≠ [] ∧ cs.all Char.isDigit := by
  simp only [Digits, List.all_eq_true, isDigit_iff]

/-- One digit more moves the others up by one place. -/
theorem placeValue_append_singleton (cs : List Char) (c : Char) :
    placeValue (cs ++ [c]) = 10 * placeValue cs + (c.toNat - '0'.toNat) := by
  rw [placeValue, List.reverse_append, List.reverse_singleton, List.singleton_append,
    List.map_cons, Nat.ofDigits_cons, Nat.add_comm]
  rfl

/-- Reading digits from the left adds up the same value. -/
theorem ofDigitChars_eq_placeValue (cs : List Char) :
    Nat.ofDigitChars 10 cs 0 = placeValue cs := by
  -- The digits are read from the first one to the last one, and the last one counts ones. So the
  -- list is built up from its end.
  induction cs using List.reverseRecOn with
  | nil => rfl
  | append_singleton cs c ih =>
    rw [Nat.ofDigitChars_append, ih, Nat.ofDigitChars_cons, Nat.ofDigitChars_nil,
      placeValue_append_singleton]

/-! ### Reading numerals -/

/-- Digits are read as their value, and nothing else is read. -/
theorem natural?_eq_some_iff : natural? cs = some k ↔ Digits cs ∧ placeValue cs = k := by
  unfold natural?
  rw [ofDigitChars_eq_placeValue]
  split
  · next h => simp [digits_iff.2 h]
  · next h => simp [mt digits_iff.1 h]

/-- **The reader accepts the numerals**, and gives their values. -/
theorem integer?_eq_some_iff : integer? cs = some n ↔ Numeral cs n := by
  constructor
  · intro h
    -- There is one case for each sign, and the last one is for none.
    unfold integer? at h
    split at h
    all_goals
      simp only [Option.map_eq_some_iff, Option.bind_eq_bind, Option.bind_eq_some_iff,
        Option.pure_def, Option.some.injEq, natural?_eq_some_iff] at h
      obtain ⟨_, ⟨_, ⟨hdigits, rfl⟩, rfl⟩, rfl⟩ := h
    case h_1 => exact .minus hdigits
    case h_2 => exact .plus hdigits
    case h_3 => exact .unsigned hdigits
  · intro h
    have hread {cs : List Char} (h : Digits cs) : natural? cs = some (placeValue cs) :=
      natural?_eq_some_iff.2 ⟨h, rfl⟩
    cases h with
    | unsigned h =>
      -- A digit is no sign, and so all characters are read as digits.
      obtain ⟨c, cs', rfl⟩ := List.exists_cons_of_ne_nil h.1
      have hc : c.isDigit = true := isDigit_iff.2 (h.2 c List.mem_cons_self)
      rw [integer?_of_isDigit hc, hread h]
      rfl
    | plus h => rw [integer?, hread h]; rfl
    | minus h => rw [integer?, hread h]; rfl

/-- **A numeral is read as a word** if its value fits. -/
theorem word?_eq_some_iff : word? cs = some w ↔ Numeral cs w.toInt := by
  rw [← integer?_eq_some_iff]
  unfold word?
  cases integer? cs with
  | none => simp
  | some n =>
    -- An integer was read, and so there is only one that the numeral can have as its value.
    rw [Option.some.injEq]
    constructor
    · intro h
      simp only at h
      split at h
      · next hn =>
        cases h
        exact (Word.toInt_ofInt_of_holds (Word.holds_iff.2 hn)).symm
      · contradiction
    · rintro rfl
      simp only
      rw [if_pos (Word.holds_iff.1 w.holds_toInt), Int64.ofInt_toInt]

/-- No word is read from what is no numeral, and none from a numeral that is too great or too
small. -/
theorem word?_eq_none_iff : word? cs = none ↔ ¬∃ n, Numeral cs n ∧ Word.Holds n := by
  rw [Option.eq_none_iff_forall_ne_some]
  constructor
  · rintro h ⟨n, hnumeral, hn⟩
    rw [← Word.toInt_ofInt_of_holds hn] at hnumeral
    exact h _ (word?_eq_some_iff.2 hnumeral)
  · intro h w hw
    exact h ⟨w.toInt, word?_eq_some_iff.1 hw, w.holds_toInt⟩

end Decimal

namespace Operand

variable {s name : String} {w : Word}

theorem ofSpelling_eq_literal_iff :
    ofSpelling s = .literal w ↔ Decimal.Numeral s.toList w.toInt := by
  rw [← Decimal.word?_eq_some_iff]
  unfold ofSpelling
  cases Decimal.word? s.toList <;> simp

/-- Every other spelling names a register, and this is the whole spelling. -/
theorem ofSpelling_eq_register_iff :
    ofSpelling s = .register name ↔
      name = s ∧ ¬∃ n, Decimal.Numeral s.toList n ∧ Word.Holds n := by
  rw [← Decimal.word?_eq_none_iff]
  unfold ofSpelling
  cases Decimal.word? s.toList <;> simp [eq_comm]

/-- **A spelling stands for what it says**: a numeral for its value, as long as this fits a word,
and any other spelling for the register of that name. -/
structure ExactSpelling (s : String) : Prop where
  literal_iff : ∀ n : Int, (∃ w, ofSpelling s = .literal w ∧ w.toInt = n) ↔
    Decimal.Numeral s.toList n ∧ Word.Holds n
  register_iff : ∀ name, ofSpelling s = .register name ↔
    name = s ∧ ¬∃ n, Decimal.Numeral s.toList n ∧ Word.Holds n
  /-- What was read is read again from its own spelling. -/
  again : ofSpelling (ofSpelling s).spelling = ofSpelling s
  /-- The spelling of a literal is the usual numeral. Every word has one. -/
  numeral : ∀ w : Word, (literal w).spelling = toString w.toInt ∧
    ofSpelling (toString w.toInt) = .literal w

/-- **Every spelling is read exactly**: numerals that fit as literals, and all others as names. -/
theorem exactSpelling (s : String) : ExactSpelling s where
  literal_iff := by
    intro n
    constructor
    · rintro ⟨w, hw, rfl⟩
      exact ⟨ofSpelling_eq_literal_iff.1 hw, w.holds_toInt⟩
    · -- The literal is the word of the integer, which stands for it since it fits.
      rintro ⟨hnumeral, hn⟩
      have hw : (Int64.ofInt n).toInt = n := Word.toInt_ofInt_of_holds hn
      refine ⟨Int64.ofInt n, ofSpelling_eq_literal_iff.2 ?_, hw⟩
      rwa [hw]
  register_iff := fun _ => ofSpelling_eq_register_iff
  again := ofSpelling_spelling_ofSpelling s
  numeral := fun w => ⟨rfl, ofSpelling_spelling_literal w⟩

end Operand

end TinyAsm

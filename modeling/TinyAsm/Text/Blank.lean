/-!
# Blank space

The characters that layout ignores are those with the Unicode property `White_Space`.
This module holds the property's table and the two cuts the assembler makes with it:

* `Blank.trim` takes blank space off both ends of a text;
* `Blank.splitHead` divides a text at its first blank.

`trim` is described by `isBlank_trim_head`/`isBlank_trim_last` (nothing blank is left
at an end) and `exists_eq_append_trim` (nothing else is taken off).
-/

namespace TinyAsm

namespace Blank

/-- The code points of the Unicode property `White_Space`, as inclusive ranges. -/
def ranges : List (Nat × Nat) :=
  [(0x09, 0x0D), (0x20, 0x20), (0x85, 0x85), (0xA0, 0xA0), (0x1680, 0x1680),
    (0x2000, 0x200A), (0x2028, 0x2029), (0x202F, 0x202F), (0x205F, 0x205F),
    (0x3000, 0x3000)]

end Blank

/-- Whether a character is blank space. -/
def isBlank (c : Char) : Bool :=
  Blank.ranges.any fun r => r.1 ≤ c.toNat && c.toNat ≤ r.2

namespace Blank

/-- A text without the blank space at its two ends. -/
def trim (cs : List Char) : List Char :=
  ((cs.dropWhile isBlank).reverse.dropWhile isBlank).reverse

/-- The text before the first blank, and the text after that blank. Without a blank the
whole text is the head. -/
def splitHead (cs : List Char) : List Char × List Char :=
  (cs.takeWhile (!isBlank ·), (cs.dropWhile (!isBlank ·)).drop 1)

/-! ### What trimming leaves -/

theorem not_isBlank_of_dropWhile_eq_cons {cs : List Char} {c : Char} {r : List Char}
    (h : cs.dropWhile isBlank = c :: r) : isBlank c = false := by
  induction cs with
  | nil => simp at h
  | cons a as ih =>
    rw [List.dropWhile_cons] at h
    split at h
    · exact ih h
    · simp_all

/-- The last character of a trimmed text is not blank. -/
theorem isBlank_trim_last {cs r : List Char} {c : Char} (h : trim cs = r ++ [c]) :
    isBlank c = false := by
  have h : (cs.dropWhile isBlank).reverse.dropWhile isBlank = c :: r.reverse := by
    have := congrArg List.reverse h
    simpa [trim] using this
  exact not_isBlank_of_dropWhile_eq_cons h

/-- The first character of a trimmed text is not blank. -/
theorem isBlank_trim_head {cs r : List Char} {c : Char} (h : trim cs = c :: r) :
    isBlank c = false := by
  -- What is taken off at the end leaves an initial part of the text.
  have hp : trim cs <+: cs.dropWhile isBlank := by
    have := List.dropWhile_suffix isBlank (l := (cs.dropWhile isBlank).reverse)
    rw [← List.reverse_prefix] at this
    simpa [trim] using this
  obtain ⟨t, ht⟩ := hp
  rw [h, List.cons_append] at ht
  exact not_isBlank_of_dropWhile_eq_cons ht.symm

/-- Trimming takes off blank space and nothing else. -/
theorem exists_eq_append_trim (cs : List Char) :
    ∃ u v, cs = u ++ trim cs ++ v ∧ u.all isBlank ∧ v.all isBlank := by
  refine ⟨cs.takeWhile isBlank, ((cs.dropWhile isBlank).reverse.takeWhile isBlank).reverse,
    ?_, ?_, ?_⟩
  · have h : cs.dropWhile isBlank
        = trim cs ++ ((cs.dropWhile isBlank).reverse.takeWhile isBlank).reverse := by
      rw [trim, ← List.reverse_append, List.takeWhile_append_dropWhile, List.reverse_reverse]
    rw [List.append_assoc, ← h, List.takeWhile_append_dropWhile]
  · simp
  · simp

end Blank

end TinyAsm

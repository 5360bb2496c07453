import TinyAsm.Text.Blank

/-!
# Lines of a program text

A program text is read line by line. A comment runs from the first `;` outside quotes to
the end of its line. What is left of a line is trimmed, and lines with nothing left are
dropped; the others keep their number in the text.

* `Line.uncommented` cuts a line before its comment;
* `Line.ofSource` gives the lines of a text.
-/

namespace TinyAsm

/-- A line that holds something, with its number in the program text, counted from
one. -/
structure Line where
  number : Nat
  text : String
deriving DecidableEq, Repr

namespace Line

/-- Puts a character before a text that is divided into lines. -/
def consChar (c : Char) : List (List Char) → List (List Char)
  | line :: lines => if c = '\n' then [] :: line :: lines else (c :: line) :: lines
  | [] => [[c]]

/-- The text divided at its line ends. There is one line more than there are ends. -/
def split (cs : List Char) : List (List Char) :=
  cs.foldr consChar [[]]

/-- The part of a line before its comment. `quoted` tells whether the line starts inside
quotes; every quote, closed or not, hides the `;` up to the next quote. -/
def uncommented (quoted : Bool) : List Char → List Char
  | [] => []
  | c :: cs =>
    if c = '\'' then c :: uncommented (!quoted) cs
    else if c = ';' && !quoted then []
    else c :: uncommented quoted cs

/-- What a line holds: neither comment nor blank space around it. -/
def content (cs : List Char) : List Char :=
  Blank.trim (uncommented false cs)

/-- The line with the given number, unless it holds nothing. -/
def ofNumbered? (cs : List Char) (number : Nat) : Option Line :=
  match content cs with
  | [] => none
  | text => some ⟨number, String.ofList text⟩

/-- The lines of a program text. -/
def ofSource (source : String) : List Line :=
  ((split source.toList).zipIdx 1).filterMap fun (cs, number) => ofNumbered? cs number

/-! ### Splitting -/

@[simp] theorem split_nil : split [] = [[]] := rfl

theorem split_ne_nil (cs : List Char) : split cs ≠ [] := by
  cases cs with
  | nil => simp
  | cons c cs =>
    rw [split, List.foldr_cons]
    cases List.foldr consChar [[]] cs with
    | nil => simp [consChar]
    | cons line lines => by_cases hc : c = '\n' <;> simp [consChar, hc]

/-- A line end starts a new line. -/
theorem split_cons_newline (cs : List Char) : split ('\n' :: cs) = [] :: split cs := by
  have h := split_ne_nil cs
  rw [split, List.foldr_cons, ← split]
  cases hs : split cs with
  | nil => exact absurd hs h
  | cons line lines => simp [consChar]

/-- Any other character belongs to the line that it stands before. -/
theorem split_cons {c : Char} (hc : c ≠ '\n') (cs : List Char) :
    ∃ line lines, split cs = line :: lines ∧ split (c :: cs) = (c :: line) :: lines := by
  have h := split_ne_nil cs
  cases hs : split cs with
  | nil => exact absurd hs h
  | cons line lines =>
    refine ⟨line, lines, rfl, ?_⟩
    rw [split, List.foldr_cons, ← split, hs]
    simp [consChar, hc]

end Line

end TinyAsm

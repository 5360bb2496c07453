import TinyAsm.Program.Assembly
import TinyAsm.Proofs.Except
import TinyAsm.Proofs.Source.Line

/-!
# The first bad line

A line is bad or not whatever stands around it, and assembling stops at the first bad line as if
the lines from there on were not there.

* `Line.Accepted` and `Line.Rejected` — what becomes of a line on its own, put into a program that
  has nothing in it;
* `error_extend_eq_none_iff`, `error_extend_eq_some_iff` — lines are put into a program without an
  error if and only if each of them is accepted on its own, and otherwise the error is that of the
  first one that is rejected;
* `extend_of_rejected` — the program then has the statements of the lines before, and can be
  extended further;
* `assemble_eq_error_iff` — the same of a text. The number of a bad line is its place among all
  the lines of the text, those that hold nothing included.
-/

namespace TinyAsm

namespace Line

/-- The line is put into an empty program without an error. -/
def Accepted (line : Line) : Prop :=
  (({} : Program).extend [line]).2 = none

/-- The error with which the line is refused by an empty program. -/
def Rejected (line : Line) (e : AssemblyError) : Prop :=
  (({} : Program).extend [line]).2 = some e

/-- What a line of a text holds is accepted, if it holds anything. -/
def Harmless (raw : List Char) : Prop :=
  ∀ number line, ofNumbered? raw number = some line → line.Accepted

variable {line line' : Line} {e : AssemblyError} {source : String} {raw : List Char}
  {number : Nat} {lines₁ lines₂ : List Line}

/-! ### One line -/

/-- A line is accepted if it is a statement. -/
theorem accepted_iff : line.Accepted ↔ ∃ s, Statement.ofLine line = .ok s := by
  unfold Accepted
  cases hs : Statement.ofLine line with
  | ok s => simp [Program.extend_cons_of_ok hs]
  | error e => simp [Program.extend_cons_of_error hs]

theorem rejected_iff : line.Rejected e ↔ Statement.ofLine line = .error e := by
  unfold Rejected
  cases hs : Statement.ofLine line with
  | ok s => simp [Program.extend_cons_of_ok hs]
  | error e => simp [Program.extend_cons_of_error hs]

/-- **An error has the number of its line**, whatever is wrong with the line. -/
theorem Rejected.line_eq (h : line.Rejected e) : e.line = line.number := by
  have hs : Statement.ofLine line = .error e := rejected_iff.1 h
  unfold Statement.ofLine at hs
  cases hparse : Statement.parse line.text.toList with
  | ok s =>
    rw [hparse] at hs
    contradiction
  | error cause =>
    rw [hparse] at hs
    cases hs
    rfl

/-- Whether a line is accepted does not depend on its number. -/
theorem Accepted.of_text_eq (h : line.Accepted) (htext : line'.text = line.text) :
    line'.Accepted := by
  obtain ⟨s, hs⟩ := accepted_iff.1 h
  refine accepted_iff.2 ⟨s, ?_⟩
  unfold Statement.ofLine at hs ⊢
  rw [Except.mapError_eq_ok_iff] at hs ⊢
  rw [htext]
  exact hs

/-! ### The lines of a text -/

/-- A line of a text is harmless if it is accepted where it stands, or holds nothing. -/
theorem harmless_iff (number : Nat) :
    Harmless raw ↔ ∀ line ∈ ofNumbered? raw number, line.Accepted := by
  constructor
  · intro h line hline
    exact h number line hline
  · intro h number' line' hline'
    obtain ⟨hcontent, rfl⟩ := ofNumbered?_eq_some_iff.1 hline'
    exact (h _ (ofNumbered?_eq_some_iff.2 ⟨hcontent, rfl⟩)).of_text_eq rfl

/-- The lines that are kept of some lines of a text, the first of which has the given number. -/
def numbered (css : List (List Char)) (number : Nat) : List Line :=
  (css.zipIdx number).filterMap fun (cs, n) => ofNumbered? cs n

theorem ofSource_eq_numbered (source : String) :
    ofSource source = numbered (split source.toList) 1 := rfl

theorem numbered_append (css css' : List (List Char)) (number : Nat) :
    numbered (css ++ css') number = numbered css number ++ numbered css' (number + css.length) := by
  rw [numbered, List.zipIdx_append, List.filterMap_append]
  rfl

/-- A line has its number whether it is kept or not. -/
theorem numbered_cons (raw : List Char) (css : List (List Char)) (number : Nat) :
    numbered (raw :: css) number =
      (ofNumbered? raw number).toList ++ numbered css (number + 1) := by
  cases h : ofNumbered? raw number with
  | none => exact List.filterMap_cons_none h
  | some line => exact List.filterMap_cons_some h

/-- All lines that are kept are accepted if and only if each of the lines is harmless. -/
theorem forall_numbered_accepted_iff (css : List (List Char)) (number : Nat) :
    (∀ line ∈ numbered css number, line.Accepted) ↔ ∀ raw ∈ css, Harmless raw := by
  induction css generalizing number with
  | nil => simp [numbered]
  | cons raw css ih =>
    rw [numbered_cons, List.forall_mem_append, List.forall_mem_cons, ih (number + 1),
      harmless_iff number]
    simp only [Option.mem_toList, Option.mem_def]

/-- **Where a line comes from**, with its place: as many lines of the text stand before it as its
number says, whether they hold anything or not. -/
theorem exists_of_numbered_eq {css : List (List Char)}
    (h : numbered css number = lines₁ ++ line :: lines₂) :
    ∃ before raw after, css = before ++ raw :: after ∧ lines₁ = numbered before number ∧
      ofNumbered? raw (number + before.length) = some line := by
  -- Cut the numbered lines before the one that the line was made of ...
  obtain ⟨front, back, hzip, rfl, hback⟩ := List.filterMap_eq_append_iff.1 h
  obtain ⟨gap, ⟨raw, n⟩, rest, rfl, hgap, hline, -⟩ := List.filterMap_eq_cons_iff.1 hback
  rw [← List.append_assoc] at hzip
  -- ... and take the numbers off again.
  obtain ⟨before, behind, rfl, hbefore, hbehind⟩ := List.zipIdx_eq_append_iff.1 hzip
  obtain ⟨raw', after, rfl, hraw, -⟩ := List.zipIdx_eq_cons_iff.1 hbehind.symm
  obtain ⟨rfl, rfl⟩ := Prod.mk.inj hraw
  refine ⟨before, raw, after, rfl, ?_, hline⟩
  rw [numbered, ← hbefore, List.filterMap_append, List.filterMap_eq_nil_iff.2 hgap,
    List.append_nil]

end Line

namespace Program

open Line (Accepted Rejected Harmless)

variable {p : Program} {line : Line} {lines before after : List Line} {e : AssemblyError}
  {source : String}

/-! ### Lists of lines -/

/-- **Lines are put in without an error** if and only if each is accepted on its own. -/
theorem error_extend_eq_none_iff :
    (p.extend lines).2 = none ↔ ∀ line ∈ lines, line.Accepted := by
  -- The program changes from line to line, and what it is makes no difference.
  induction lines generalizing p with
  | nil => simp
  | cons line lines ih =>
    rw [List.forall_mem_cons, Line.accepted_iff]
    cases hs : Statement.ofLine line with
    | ok s => simp [extend_cons_of_ok hs, ih]
    | error e => simp [extend_cons_of_error hs]

/-- Lines that are accepted can be put in first. -/
theorem extend_append_of_accepted (h : ∀ l ∈ before, l.Accepted) (lines : List Line) :
    p.extend (before ++ lines) = (p.extend before).1.extend lines := by
  have hnone : (p.extend before).2 = none := error_extend_eq_none_iff.2 h
  -- The lines before have come to a program and no error, and the others go on from there.
  rw [extend_append]
  generalize p.extend before = r at hnone
  obtain ⟨q, error⟩ := r
  obtain rfl : error = none := hnone
  rfl

/-- **A rejected line leaves a clean program**: its error is reported, and the program has the
statements of the lines before it and nothing else. -/
theorem extend_of_rejected (hbefore : ∀ l ∈ before, l.Accepted) (hline : line.Rejected e)
    (after : List Line) :
    p.extend (before ++ line :: after) = ((p.extend before).1, some e) := by
  rw [extend_append_of_accepted hbefore, extend_cons_of_error (Line.rejected_iff.1 hline)]

/-- **The first bad line is reported.** -/
theorem error_extend_eq_some_iff :
    (p.extend lines).2 = some e ↔
      ∃ before line after, lines = before ++ line :: after ∧
        (∀ l ∈ before, l.Accepted) ∧ line.Rejected e := by
  constructor
  · intro h
    induction lines generalizing p with
    | nil => contradiction
    | cons line lines ih =>
      -- The first line is the one that is rejected, or it is accepted and stands before that one.
      cases hs : Statement.ofLine line with
      | error e' =>
        rw [extend_cons_of_error hs] at h
        cases h
        exact ⟨[], line, lines, rfl, List.forall_mem_nil _, Line.rejected_iff.2 hs⟩
      | ok s =>
        rw [extend_cons_of_ok hs] at h
        obtain ⟨before, bad, after, rfl, hbefore, hbad⟩ := ih h
        have haccepted : line.Accepted := Line.accepted_iff.2 ⟨s, hs⟩
        exact ⟨line :: before, bad, after, rfl,
          List.forall_mem_cons.2 ⟨haccepted, hbefore⟩, hbad⟩
  · rintro ⟨before, line, after, rfl, hbefore, hline⟩
    rw [extend_of_rejected hbefore hline]

/-! ### Texts -/

/-- A text is a program if and only if none of its lines does harm. -/
theorem exists_assemble_eq_ok_iff :
    (∃ p, assemble source = .ok p) ↔ ∀ raw ∈ Line.split source.toList, Harmless raw := by
  rw [← Line.forall_numbered_accepted_iff _ 1, ← Line.ofSource_eq_numbered,
    ← error_extend_eq_none_iff (p := {})]
  unfold assemble
  rcases extend {} (Line.ofSource source) with ⟨p, _ | e⟩
  · simp
  · simp

theorem assemble_eq_error_iff_extend :
    assemble source = .error e ↔ (extend {} (Line.ofSource source)).2 = some e := by
  unfold assemble
  rcases extend {} (Line.ofSource source) with ⟨p, _ | e'⟩
  · simp
  · simp

/-- **The first bad line of a text is reported**, with its place among all lines of the text. -/
theorem assemble_eq_error_iff :
    assemble source = .error e ↔
      ∃ before raw after line, Line.split source.toList = before ++ raw :: after ∧
        (∀ r ∈ before, Harmless r) ∧
        Line.ofNumbered? raw (before.length + 1) = some line ∧ line.Rejected e ∧
        e.line = before.length + 1 := by
  rw [assemble_eq_error_iff_extend, error_extend_eq_some_iff, Line.ofSource_eq_numbered]
  constructor
  · rintro ⟨lines₁, line, lines₂, hlines, hbefore, hline⟩
    obtain ⟨before, raw, after, hsplit, rfl, hraw⟩ := Line.exists_of_numbered_eq hlines
    rw [Nat.add_comm] at hraw
    -- The lines of a text are numbered from one.
    have hnumber : line.number = before.length + 1 := by
      rw [(Line.ofNumbered?_eq_some_iff.1 hraw).2]
    exact ⟨before, raw, after, line, hsplit, (Line.forall_numbered_accepted_iff before 1).1 hbefore,
      hraw, hline, hline.line_eq.trans hnumber⟩
  · rintro ⟨before, raw, after, line, hsplit, hbefore, hraw, hline, -⟩
    rw [Nat.add_comm] at hraw
    refine ⟨Line.numbered before 1, line, Line.numbered after (1 + before.length + 1), ?_,
      (Line.forall_numbered_accepted_iff before 1).2 hbefore, hline⟩
    rw [hsplit, Line.numbered_append, Line.numbered_cons, hraw]
    rfl

/-! ### Both together -/

/-- **The first error wins** when lines are put into a program. -/
structure FirstErrorWins (p : Program) (lines : List Line) : Prop where
  /-- There is no error exactly if each line is accepted on its own. -/
  none_iff : (p.extend lines).2 = none ↔ ∀ line ∈ lines, line.Accepted
  /-- An error is that of the first line that is rejected on its own. -/
  some_iff : ∀ e, (p.extend lines).2 = some e ↔
    ∃ before line after, lines = before ++ line :: after ∧
      (∀ l ∈ before, l.Accepted) ∧ line.Rejected e
  /-- It has the number of that line. The program has what the lines before have put in and
  nothing else, and more lines go in behind that. -/
  of_first : ∀ {before line after e}, lines = before ++ line :: after →
    (∀ l ∈ before, l.Accepted) → line.Rejected e →
      e.line = line.number ∧ (p.extend before).2 = none ∧
        (p.extend lines).1 = (p.extend before).1 ∧
        ∀ more, (p.extend lines).1.extend more = p.extend (before ++ more)

/-- **The first error wins** when a text is assembled. -/
structure FirstErrorOfText (source : String) : Prop where
  /-- The text is a program exactly if each of its lines holds nothing, or is accepted on its
  own. -/
  ok_iff : (∃ p, assemble source = .ok p) ↔ ∀ raw ∈ Line.split source.toList, Harmless raw
  /-- An error is that of the first line of which this is not true. The lines of the text are
  counted from one, also those that hold nothing. -/
  error_iff : ∀ e, assemble source = .error e ↔
    ∃ before raw after line, Line.split source.toList = before ++ raw :: after ∧
      (∀ r ∈ before, Harmless r) ∧
      Line.ofNumbered? raw (before.length + 1) = some line ∧ line.Rejected e ∧
      e.line = before.length + 1

/-- **The first error wins**, for lines that are put into a program and for texts. -/
theorem firstErrorWins (p : Program) (lines : List Line) (source : String) :
    FirstErrorWins p lines ∧ FirstErrorOfText source := by
  refine ⟨⟨error_extend_eq_none_iff, fun _ => error_extend_eq_some_iff, ?first⟩,
    ⟨exists_assemble_eq_ok_iff, fun _ => assemble_eq_error_iff⟩⟩
  case first =>
    rintro before line after e rfl hbefore hline
    have hclean : (p.extend (before ++ line :: after)).1 = (p.extend before).1 := by
      rw [extend_of_rejected hbefore hline]
    refine ⟨hline.line_eq, error_extend_eq_none_iff.2 hbefore, hclean, ?more⟩
    case more =>
      intro more
      rw [hclean, extend_append_of_accepted hbefore]

end Program

end TinyAsm

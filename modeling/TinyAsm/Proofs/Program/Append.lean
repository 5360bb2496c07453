import TinyAsm.Program.Assembly
import TinyAsm.Proofs.Source.Line

/-!
# Texts one after the other

Two program texts with a line end between them are one program text. This module says what
that text assembles to, given what the two assemble to on their own:

* `p ++ q` is the program `p` with the program `q` behind it. The labels of `q` move with its
  instructions, and win over labels of `p` with the same name.
* `Line.ofSource_append_newline` — the lines of the whole text are those of the two texts, where
  the second text goes on with the line numbers of the first;
* `Program.append_extend` — putting statements in behind a program puts them in behind whatever
  stands before it;
* `Program.assemble_append_newline` — the whole text assembles to the two programs one behind
  the other, or fails where the first bad line of the two texts is.

A line of the second text never depends on the first: a quote that is left open hides comments
up to the end of its own line only.
-/

namespace TinyAsm

/-! ### Lines and their numbers -/

namespace Line

/-- The line with its number raised. -/
def later (n : Nat) (line : Line) : Line :=
  { line with number := line.number + n }

/-- What a line holds does not depend on its number. -/
theorem ofNumbered?_add (cs : List Char) (number n : Nat) :
    ofNumbered? cs (number + n) = (ofNumbered? cs number).map (later n) := by
  unfold ofNumbered?
  cases content cs with
  | nil => rfl
  | cons c text => rfl

/-- Raising all numbers raises the numbers of the lines that are kept. -/
theorem filterMap_ofNumbered?_add (css : List (List Char)) (number n : Nat) :
    ((css.zipIdx (number + n)).filterMap fun (cs, number) => ofNumbered? cs number) =
      ((css.zipIdx number).filterMap fun (cs, number) => ofNumbered? cs number).map (later n) := by
  induction css generalizing number with
  | nil => rfl
  | cons cs css ih =>
    have hnext : number + n + 1 = number + 1 + n := Nat.add_right_comm number n 1
    simp only [List.zipIdx_cons, List.filterMap_cons, ofNumbered?_add, hnext, ih]
    cases ofNumbered? cs number with
    | none => rfl
    | some line => rfl

/-- **The lines of two texts.** The second text is read as if it stood alone, but for the line
numbers. -/
theorem ofSource_append_newline (s₁ s₂ : String) :
    ofSource (s₁ ++ "\n" ++ s₂) =
      ofSource s₁ ++ (ofSource s₂).map (later (1 + s₁.toList.count '\n')) := by
  have hchars : (s₁ ++ "\n" ++ s₂).toList = s₁.toList ++ '\n' :: s₂.toList := by
    rw [String.toList_append, String.toList_append, List.append_assoc]
    rfl
  have hlength : (split s₁.toList).length = 1 + s₁.toList.count '\n' := by
    rw [length_split, Nat.add_comm]
  rw [ofSource, hchars, split_append_newline, List.zipIdx_append, List.filterMap_append, hlength,
    filterMap_ofNumbered?_add]
  rfl

end Line

/-- An error of a line is one of the line with its number raised, further down. -/
theorem Statement.ofLine_later (n : Nat) (line : Line) :
    ofLine (line.later n) =
      (ofLine line).mapError fun e => { e with line := e.line + n } := by
  unfold ofLine
  rw [Line.later]
  cases parse line.text.toList with
  | ok s => rfl
  | error cause => rfl

/-! ### Programs -/

/-- The position as many places further down, counted before the place. -/
theorem Word.before_add (n size : Nat) :
    before n + Int64.ofNat size = before (size + n) := by
  have hsum : ((size + n : Nat) : Int) - 1 = ((n : Int) - 1) + (size : Int) := by omega
  rw [before, before, hsum, Int64.ofInt_add, Int64.ofInt_eq_ofNat]

namespace Program

/-- **Two programs, one behind the other.** The labels of the second one move with its
instructions, and win over labels of the first one that have the same name. -/
protected def append (p q : Program) : Program where
  instructions := p.instructions ++ q.instructions
  labels := p.labels ∪ q.labels.map fun _ position => position + Int64.ofNat p.size

instance : Append Program := ⟨Program.append⟩

variable {p q : Program} {s : Statement} {lines : List Line} {name : String}

theorem instructions_append (p q : Program) :
    (p ++ q).instructions = p.instructions ++ q.instructions := rfl

theorem size_append (p q : Program) : (p ++ q).size = p.size + q.size :=
  Array.size_append

/-- A label of the second program is found first, and moved. -/
theorem getElem?_labels_append (p q : Program) (name : String) :
    (p ++ q).labels[name]? =
      (q.labels[name]?.map (· + Int64.ofNat p.size)).or p.labels[name]? := by
  change (p.labels ∪ q.labels.map fun _ position => position + Int64.ofNat p.size)[name]? = _
  rw [Std.ExtTreeMap.getElem?_union, Std.ExtTreeMap.getElem?_map]

@[ext] theorem ext_getElem? (hi : p.instructions = q.instructions)
    (hl : ∀ name : String, p.labels[name]? = q.labels[name]?) : p = q := by
  have hlabels : p.labels = q.labels := Std.ExtTreeMap.ext_getElem? hl
  cases p
  cases q
  rw [Program.mk.injEq]
  exact ⟨hi, hlabels⟩

theorem append_empty (p : Program) : p ++ ({} : Program) = p := by
  apply ext_getElem?
  · rw [instructions_append, Array.append_empty]
  · intro name
    rw [getElem?_labels_append, Std.ExtTreeMap.getElem?_empty]
    rfl

/-- **One more statement** goes to the end, whatever stands before. -/
theorem append_add (p q : Program) (s : Statement) : (p ++ q).add s = p ++ q.add s := by
  cases s with
  | instruction i =>
    -- No label is declared, and none moves.
    apply ext_getElem?
    · exact Array.append_push.symm
    · intro name
      rfl
  | label name =>
    apply ext_getElem?
    · rfl
    · intro name'
      -- The end of both programs is the end of the second one, as many places further down.
      have hend : Word.before (p ++ q).size = Word.before q.size + Int64.ofNat p.size := by
        rw [Word.before_add, size_append]
      rw [getElem?_labels_append]
      change ((p ++ q).labels.insert name (Word.before (p ++ q).size))[name']? =
        ((q.labels.insert name (Word.before q.size))[name']?.map _).or _
      -- The label is found on both sides, or was there on both sides before.
      rw [Std.ExtTreeMap.getElem?_insert, Std.ExtTreeMap.getElem?_insert, getElem?_labels_append,
        hend]
      split
      · rfl
      · rfl

/-- **So do lines**, up to the first bad one: whether a line is bad does not depend on the
program. -/
theorem append_extend (p q : Program) (lines : List Line) :
    (p ++ q).extend lines = (p ++ (q.extend lines).1, (q.extend lines).2) := by
  -- The program in front stays; the one behind it grows by a line.
  induction lines generalizing q with
  | nil => rfl
  | cons line lines ih =>
    cases hs : Statement.ofLine line with
    | ok s => rw [extend_cons_of_ok hs, extend_cons_of_ok hs, append_add, ih]
    | error e => rw [extend_cons_of_error hs, extend_cons_of_error hs]

/-- The numbers of lines matter for errors only. -/
theorem extend_later (p : Program) (lines : List Line) (n : Nat) :
    p.extend (lines.map (Line.later n)) =
      ((p.extend lines).1, (p.extend lines).2.map fun e => { e with line := e.line + n }) := by
  induction lines generalizing p with
  | nil => rfl
  | cons line lines ih =>
    have hlater := Statement.ofLine_later n line
    -- The line is bad with either number, or with none.
    cases hs : Statement.ofLine line with
    | ok s =>
      rw [hs] at hlater
      rw [List.map_cons, extend_cons_of_ok hlater, extend_cons_of_ok hs, ih]
    | error e =>
      rw [hs] at hlater
      rw [List.map_cons, extend_cons_of_error hlater, extend_cons_of_error hs]
      rfl

/-- **Assembling two texts with a line end between them** gives their programs one behind the
other. If one of the texts is no program, neither are the two together, and the first bad line
is reported; in the second text it has as many lines before it as the first text has besides. -/
theorem assemble_append_newline (s₁ s₂ : String) :
    assemble (s₁ ++ "\n" ++ s₂) =
      match assemble s₁, assemble s₂ with
      | .ok p, .ok q => .ok (p ++ q)
      | .ok _, .error e => .error { e with line := e.line + (1 + s₁.toList.count '\n') }
      | .error e, _ => .error e := by
  unfold assemble
  rw [Line.ofSource_append_newline, extend_append]
  rcases extend {} (Line.ofSource s₁) with ⟨p, _ | e⟩
  · -- The lines of the second text are put in behind the program of the first.
    have hsecond := append_extend p {} (Line.ofSource s₂)
    rw [append_empty] at hsecond
    dsimp only
    rw [extend_later, hsecond]
    rcases extend {} (Line.ofSource s₂) with ⟨q, _ | e⟩
    · rfl
    · rfl
  · -- A bad line of the first text hides all that comes after it.
    rfl

end Program

end TinyAsm

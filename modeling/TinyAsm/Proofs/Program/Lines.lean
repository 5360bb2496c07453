import TinyAsm.Program.Assembly
import TinyAsm.Proofs.Except

/-!
# What a program keeps of its lines

Assembling forgets the lines: instructions are numbered from zero, and a label becomes the
index before the instruction that follows it. This module relates the two ways to count.

* `Line.index lines position` — how many of the first `position` lines hold instructions,
  which is the index of an instruction on the line at `position`;
* `Line.landing? name lines` — the position just after the last line that declares `name`;
* `Program.MadeOf lines p` — the program `p` has the instructions of the lines, in order, and
  every label marks the place where its last declaration stands.

`Program.MadeOf.add` states that one more line keeps the relation, and
`Program.madeOf_of_assemble` that every assembled program is made of the lines of its text.
-/

namespace TinyAsm

namespace Line

/-- The instruction on a line, if that is what the line holds. -/
def instruction? (line : Line) : Option Instruction :=
  match Statement.ofLine line with
  | .ok (.instruction i) => some i
  | _ => none

/-- The name that a line declares, if the line is a label. -/
def label? (line : Line) : Option String :=
  match Statement.ofLine line with
  | .ok (.label name) => some name
  | _ => none

/-- The number of instructions on the first `position` lines. -/
def index (lines : List Line) (position : Nat) : Nat :=
  ((lines.take position).filterMap instruction?).length

/-- The position just after the last line that declares a label. -/
def landing? (name : String) : List Line → Option Nat
  | [] => none
  | line :: lines =>
    match landing? name lines with
    | some position => some (position + 1)
    | none => if line.label? = some name then some 1 else none

variable {line : Line} {lines lines' : List Line} {name : String} {i : Instruction}
  {position : Nat}

/-- What a line holds is one of the two, and not the other; the four lemmas here say so. -/
theorem instruction?_of_instruction (h : Statement.ofLine line = .ok (.instruction i)) :
    line.instruction? = some i := by
  simp only [instruction?, h]

theorem instruction?_of_label (h : Statement.ofLine line = .ok (.label name)) :
    line.instruction? = none := by
  simp only [instruction?, h]

theorem label?_of_instruction (h : Statement.ofLine line = .ok (.instruction i)) :
    line.label? = none := by
  simp only [label?, h]

theorem label?_of_label (h : Statement.ofLine line = .ok (.label name)) :
    line.label? = some name := by
  simp only [label?, h]

theorem instruction?_eq_some_iff :
    line.instruction? = some i ↔ Statement.parse line.text.toList = .ok (.instruction i) := by
  have hline : Statement.ofLine line = .ok (.instruction i) ↔
      Statement.parse line.text.toList = .ok (.instruction i) := Except.mapError_eq_ok_iff
  rw [← hline]
  refine ⟨fun h => ?_, instruction?_of_instruction⟩
  unfold instruction? at h
  split at h
  · next hs => cases h; exact hs
  · contradiction

theorem label?_eq_some_iff :
    line.label? = some name ↔ Statement.parse line.text.toList = .ok (.label name) := by
  have hline : Statement.ofLine line = .ok (.label name) ↔
      Statement.parse line.text.toList = .ok (.label name) := Except.mapError_eq_ok_iff
  rw [← hline]
  refine ⟨fun h => ?_, label?_of_label⟩
  unfold label? at h
  split at h
  · next hs => cases h; exact hs
  · contradiction

/-! ### Counting instructions -/

theorem index_of_length_le (h : lines.length ≤ position) :
    index lines position = (lines.filterMap instruction?).length := by
  rw [index, List.take_of_length_le h]

theorem index_append_of_le (h : position ≤ lines.length) :
    index (lines ++ lines') position = index lines position := by
  rw [index, index, List.take_append_of_le_length h]

/-- **The index steps forward with the instruction of a line**, and not with its label. -/
theorem index_succ (h : lines[position]? = some line) :
    index lines (position + 1) = index lines position + line.instruction?.toList.length := by
  rw [index, index, List.take_add_one, h, List.filterMap_append, List.length_append]
  cases hi : line.instruction? <;> simp [hi]

theorem index_succ_of_instruction (h : lines[position]? = some line)
    (hs : Statement.ofLine line = .ok (.instruction i)) :
    index lines (position + 1) = index lines position + 1 := by
  rw [index_succ h, instruction?_of_instruction hs]
  rfl

theorem index_succ_of_label (h : lines[position]? = some line)
    (hs : Statement.ofLine line = .ok (.label name)) :
    index lines (position + 1) = index lines position := by
  rw [index_succ h, instruction?_of_label hs]
  rfl

/-- The instruction on a line stands, among all instructions, at the line's index. -/
theorem getElem?_filterMap_index (h : lines[position]? = some line)
    (hs : Statement.ofLine line = .ok (.instruction i)) :
    (lines.filterMap instruction?)[index lines position]? = some i := by
  obtain ⟨hlt, hline⟩ := List.getElem?_eq_some_iff.1 h
  -- The lines before this one contribute exactly the instructions that the index counts.
  have hsplit : lines = lines.take position ++ line :: lines.drop (position + 1) := by
    rw [← hline, List.getElem_cons_drop, List.take_append_drop]
  have hmap : lines.filterMap instruction? = (lines.take position).filterMap instruction? ++
      i :: (lines.drop (position + 1)).filterMap instruction? := by
    conv => lhs; rw [hsplit]
    rw [List.filterMap_append, List.filterMap_cons_some (instruction?_of_instruction hs)]
  rw [hmap, index, List.getElem?_append_right (Nat.le_refl _), Nat.sub_self,
    List.getElem?_cons_zero]

/-! ### Finding labels -/

theorem landing?_eq_none_iff :
    landing? name lines = none ↔ ∀ line ∈ lines, line.label? ≠ some name := by
  induction lines with
  | nil => simp [landing?]
  | cons first lines ih =>
    rw [landing?, List.forall_mem_cons, ← ih]
    cases hl : landing? name lines with
    | none => by_cases hf : first.label? = some name <;> simp [hf]
    | some k => simp

/-- **The last declaration counts**: there is one on the line before the landing, and none
after it. -/
theorem landing?_eq_some_iff :
    landing? name lines = some position ↔
      ∃ before line after, lines = before ++ line :: after ∧ line.label? = some name ∧
        (∀ line ∈ after, line.label? ≠ some name) ∧ position = before.length + 1 := by
  constructor
  · intro h
    induction lines generalizing position with
    | nil => simp [landing?] at h
    | cons first lines ih =>
      rw [landing?] at h
      -- A declaration further down wins over one on the first line.
      split at h
      · next k hk =>
        cases h
        obtain ⟨before, line, after, rfl, hl, ha, rfl⟩ := ih hk
        exact ⟨first :: before, line, after, rfl, hl, ha, rfl⟩
      · next hk =>
        split at h
        · next hf =>
          cases h
          exact ⟨[], first, lines, rfl, hf, landing?_eq_none_iff.1 hk, rfl⟩
        · contradiction
  · rintro ⟨before, line, after, rfl, hl, ha, rfl⟩
    -- The declaration is found behind all lines before it, since none after it wins.
    induction before with
    | nil => rw [List.nil_append, landing?, landing?_eq_none_iff.2 ha, if_pos hl]; rfl
    | cons first before ih => rw [List.cons_append, landing?, ih]; rfl

/-- A label lands behind a line of the program, or just past the last one. -/
theorem landing?_le_length (h : landing? name lines = some position) :
    position ≤ lines.length := by
  induction lines generalizing position with
  | nil => simp [landing?] at h
  | cons line lines ih =>
    rw [landing?] at h
    rw [List.length_cons]
    -- The landing is one further down than among the other lines, or just behind the first line.
    split at h
    · next k hk =>
      have := ih hk
      cases h
      omega
    · split at h
      · cases h
        omega
      · contradiction

/-- A line that comes last wins over every earlier declaration. -/
theorem landing?_append_singleton :
    landing? name (lines ++ [line]) =
      if line.label? = some name then some (lines.length + 1) else landing? name lines := by
  induction lines with
  | nil => simp [landing?]
  | cons first lines ih =>
    rw [List.cons_append, landing?, ih, landing?, List.length_cons]
    -- If the last line declares the label, then it wins on either side.
    by_cases hl : line.label? = some name
    · simp only [hl, if_true]
    · simp only [hl, if_false]

end Line

namespace Program

open Line

/-- **A program that is made of lines.** Every line is a statement. The instructions are
those on the lines, and a label stands for the position before the instructions that follow
its last declaration. -/
structure MadeOf (lines : List Line) (p : Program) : Prop where
  /-- Every line is a statement. -/
  parsed : ∀ line ∈ lines, ∃ s, Statement.ofLine line = .ok s
  /-- The instructions are those on the lines. -/
  instructions : p.instructions.toList = lines.filterMap instruction?
  /-- The last declaration of a label binds it. -/
  labels : ∀ name, p.labels[name]? =
    (landing? name lines).map fun position => Word.before (index lines position)

theorem MadeOf.nil : MadeOf [] {} where
  parsed := fun _ h => absurd h List.not_mem_nil
  instructions := rfl
  labels := fun name => by simp [landing?]

section MadeOf

variable {p : Program} {lines : List Line} {line : Line} {s : Statement}

/-- Every label is declared on one of the lines. -/
theorem MadeOf.exists_label? (h : MadeOf lines p) {e : String × Word}
    (he : e ∈ p.labels.toList) : ∃ line ∈ lines, line.label? = some e.1 := by
  have hlabel := h.labels e.1
  rw [Std.ExtTreeMap.mem_toList_iff_getElem?_eq_some.1 he] at hlabel
  obtain ⟨k, hk, -⟩ := Option.map_eq_some_iff.1 hlabel.symm
  obtain ⟨before, line, after, hlines, hline, -⟩ := landing?_eq_some_iff.1 hk
  refine ⟨line, ?_, hline⟩
  rw [hlines]
  exact List.mem_append_right before List.mem_cons_self

theorem MadeOf.size_eq (h : MadeOf lines p) : p.size = index lines lines.length := by
  rw [index_of_length_le (Nat.le_refl _), ← h.instructions, Array.length_toList, size]

/-- No index is past the end of the program. -/
theorem MadeOf.index_le_size (h : MadeOf lines p) (position : Nat) :
    index lines position ≤ p.size := by
  rw [h.size_eq, index_of_length_le (Nat.le_refl _), index]
  exact ((List.take_sublist position lines).filterMap instruction?).length_le

/-- **One more line.** Adding the statement of a line to a program that is made of lines
gives one that is made of one line more. -/
theorem MadeOf.add (h : MadeOf lines p) (hs : Statement.ofLine line = .ok s) :
    MadeOf (lines ++ [line]) (p.add s) where
  parsed := by
    intro l hl
    rcases List.mem_append.1 hl with hl | hl
    · exact h.parsed l hl
    · obtain rfl := List.mem_singleton.1 hl
      exact ⟨s, hs⟩
  instructions := by
    rw [List.filterMap_append]
    cases s with
    | label name =>
      rw [List.filterMap_cons_none (instruction?_of_label hs), List.filterMap_nil,
        List.append_nil]
      exact h.instructions
    | instruction i =>
      rw [List.filterMap_cons_some (instruction?_of_instruction hs), List.filterMap_nil,
        ← h.instructions]
      exact Array.toList_push
  labels := by
    intro name
    -- A label that was declared before keeps its place among the instructions.
    have hold : ((landing? name lines).map fun k => Word.before (index (lines ++ [line]) k)) =
        p.labels[name]? := by
      rw [h.labels]
      cases hk : landing? name lines with
      | none => rfl
      | some k => rw [Option.map_some, Option.map_some, index_append_of_le (landing?_le_length hk)]
    rw [landing?_append_singleton]
    cases s with
    | label name' =>
      -- The new label marks the end of the program, where the next instruction will stand.
      have hend : index (lines ++ [line]) (lines.length + 1) = p.size := by
        rw [index_succ_of_label (by simp) hs, index_append_of_le (Nat.le_refl _), h.size_eq]
      have hadd : (p.add (.label name')).labels[name]? =
          if name' = name then some (Word.before p.size) else p.labels[name]? := by
        simp [Program.add, Std.ExtTreeMap.getElem?_insert]
      rw [hadd, label?_of_label hs]
      by_cases hn : name' = name
      · rw [if_pos hn, if_pos (congrArg some hn), Option.map_some, hend]
      · rw [if_neg hn, if_neg (fun he => hn (Option.some.inj he)), hold]
    | instruction i =>
      -- An instruction comes after every place that is marked so far.
      rw [label?_of_instruction hs, if_neg (Option.some_ne_none name).symm, hold]
      rfl

/-- **So do lines without an error**, one after the other. -/
theorem MadeOf.extend {lines' : List Line} {q : Program} (h : MadeOf lines p)
    (he : p.extend lines' = (q, none)) : MadeOf (lines ++ lines') q := by
  induction lines' generalizing p lines with
  | nil =>
    obtain rfl : p = q := congrArg Prod.fst he
    rwa [List.append_nil]
  | cons line lines' ih =>
    cases hs : Statement.ofLine line with
    | ok s =>
      rw [extend_cons_of_ok hs] at he
      have := ih (h.add hs) he
      rwa [List.append_assoc] at this
    | error e =>
      -- Here the lines have been put in without an error.
      rw [extend_cons_of_error hs] at he
      exact absurd (congrArg Prod.snd he) nofun

end MadeOf

/-- **An assembled program is made of the lines of its text.** -/
theorem madeOf_of_assemble {source : String} {p : Program} (h : assemble source = .ok p) :
    MadeOf (Line.ofSource source) p := by
  unfold assemble at h
  split at h
  · next q he =>
    cases h
    exact MadeOf.nil.extend he
  · contradiction

end Program

end TinyAsm

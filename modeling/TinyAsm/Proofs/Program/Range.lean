import TinyAsm.Program.Assembly
import TinyAsm.Proofs.Program.Labels

/-!
# Labels stay in range

A label is declared for the end that the program has at the time, and a program only grows.
So every label marks a place of the program, however the lines came in: all at once or a
chunk at a time, and also if a chunk breaks off at a bad line (`LabelsInRange.extendEach`).

The number of instructions has to be one that a word can hold.
-/

namespace TinyAsm.Program

/-- The program after chunks of lines were put in one after the other. Of each chunk, the
lines before its first bad line count. -/
def extendEach (p : Program) (chunks : List (List Line)) : Program :=
  chunks.foldl (fun p lines => (p.extend lines).1) p

variable {p : Program} {s : Statement} {lines : List Line} {chunks : List (List Line)}
  {size size' : Nat} {position : Word}

/-! ### Programs grow -/

theorem size_le_add (p : Program) (s : Statement) : p.size ≤ (p.add s).size := by
  cases s with
  | label name => exact Nat.le_refl _
  | instruction i =>
    rw [size_add_instruction]
    exact Nat.le_succ _

theorem size_le_extend (p : Program) (lines : List Line) : p.size ≤ (p.extend lines).1.size := by
  induction lines generalizing p with
  | nil => exact Nat.le_refl _
  | cons line lines ih =>
    cases hs : Statement.ofLine line with
    | ok s =>
      rw [extend_cons_of_ok hs]
      exact Nat.le_trans (size_le_add p s) (ih (p.add s))
    | error e =>
      have hsame : (p.extend (line :: lines)).1 = p := by rw [extend_cons_of_error hs]
      exact Nat.le_of_eq (congrArg size hsame.symm)

theorem size_le_extendEach (p : Program) (chunks : List (List Line)) :
    p.size ≤ (p.extendEach chunks).size := by
  induction chunks generalizing p with
  | nil => exact Nat.le_refl _
  | cons lines chunks ih => exact Nat.le_trans (size_le_extend p lines) (ih (p.extend lines).1)

/-! ### Labels keep their place -/

/-- A place of a program is one of every larger program. -/
theorem isLabelPosition_of_le (h : size ≤ size') (hp : isLabelPosition size position = true) :
    isLabelPosition size' position = true := by
  obtain ⟨hge, hlt⟩ := isLabelPosition_iff.1 hp
  exact isLabelPosition_iff.2 ⟨hge, Int.lt_of_lt_of_le hlt (Int.ofNat_le.2 h)⟩

/-- The position before the end is one that a label can have, `-1` in an empty program. -/
theorem isLabelPosition_before (h : size ≤ Word.indexCount) :
    isLabelPosition size (Word.before size) = true := by
  rw [isLabelPosition_iff, Word.toInt_before h]
  omega

theorem labelsInRange_empty : LabelsInRange {} := by
  intro name position h
  simp at h

/-- **One more statement** keeps the labels in range. -/
theorem LabelsInRange.add (h : p.LabelsInRange) (hsize : p.size ≤ Word.indexCount) :
    (p.add s).LabelsInRange := by
  intro name position hp
  cases s with
  | instruction i =>
    -- The instruction is put in behind every place that is marked so far.
    exact isLabelPosition_of_le (size_le_add p (.instruction i)) (h name position hp)
  | label name' =>
    have hadd : (if name' = name then some (Word.before p.size) else p.labels[name]?) =
        some position := by
      rw [← hp]
      simp [Program.add, Std.ExtTreeMap.getElem?_insert]
    rw [size_add_label]
    -- Only the label that is declared gets a new place, which is the end of the program.
    by_cases hname : name' = name
    · rw [if_pos hname] at hadd
      cases hadd
      exact isLabelPosition_before hsize
    · rw [if_neg hname] at hadd
      exact h name position hadd

/-- Labels stay in range when lines are added, whether or not one of them is bad. -/
theorem LabelsInRange.extend (h : p.LabelsInRange)
    (hsize : (p.extend lines).1.size ≤ Word.indexCount) : (p.extend lines).1.LabelsInRange := by
  induction lines generalizing p with
  | nil => exact h
  | cons line lines ih =>
    cases hs : Statement.ofLine line with
    | ok s =>
      rw [extend_cons_of_ok hs] at hsize ⊢
      have hp : p.size ≤ Word.indexCount :=
        calc
          p.size ≤ (p.add s).size := size_le_add p s
          _ ≤ ((p.add s).extend lines).1.size := size_le_extend (p.add s) lines
          _ ≤ Word.indexCount := hsize
      exact ih (h.add hp) hsize
    | error e =>
      -- A bad line leaves what the lines before it have put in.
      rw [extend_cons_of_error hs]
      exact h

/-- **So do chunks of lines**, in any number. -/
theorem LabelsInRange.extendEach (h : p.LabelsInRange)
    (hsize : (p.extendEach chunks).size ≤ Word.indexCount) :
    (p.extendEach chunks).LabelsInRange := by
  induction chunks generalizing p with
  | nil => exact h
  | cons lines chunks ih =>
    -- The program was no larger when the first chunk was put in, and so its labels had words to
    -- stand for them.
    have hp : (p.extend lines).1.size ≤ Word.indexCount :=
      Nat.le_trans (size_le_extendEach (p.extend lines).1 chunks) hsize
    exact ih (h.extend hp) hsize

/-- The labels of an assembled program are in range. -/
theorem labelsInRange_of_assemble {source : String} (h : assemble source = .ok p)
    (hsize : p.size ≤ Word.indexCount) : p.LabelsInRange := by
  unfold assemble at h
  split at h
  · next q hq =>
    cases h
    have hextend : (extend {} (Line.ofSource source)).1 = p := congrArg Prod.fst hq
    rw [← hextend] at hsize ⊢
    exact labelsInRange_empty.extend hsize
  · contradiction

end TinyAsm.Program

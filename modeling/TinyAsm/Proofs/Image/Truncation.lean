import Mathlib.Data.List.TakeWhile
import TinyAsm.Proofs.Image.RoundTrip

/-!
# Cut images

An image that was cut short is never read as a program, and the error tells in which part the
bytes end (`decode_take_write`).

For the fixed parts this is a matter of their lengths. For the body it follows from what all its
readers have in common (`Reader.Stable`): more bytes change nothing that a reader has come to,
unless it has come to the end of the bytes. So if a reader came to anything else on the front of
a body, then it would come to the same on the whole body; but that is read without an error, and
with no bytes left over (`Stable.run_take`). What is written into the bytes does not matter
there, and no reader is looked at twice: each is stable because its parts are.
-/

namespace TinyAsm.Image

open Utf8 (Bytes)

namespace Reader

/-- **More bytes change nothing**, unless there were too few. What is read is still read, with
more left over; and what is wrong is still wrong. -/
structure Stable {α : Type} (r : Reader α) : Prop where
  ok : ∀ {bytes rest : Bytes} {x : α}, r.run bytes = .ok (x, rest) →
    ∀ more, r.run (bytes ++ more) = .ok (x, rest ++ more)
  error : ∀ {bytes : Bytes} {f : BodyFault}, r.run bytes = .error f → f ≠ .endOfBytes →
    ∀ more, r.run (bytes ++ more) = .error f

section Combine

variable {α β γ δ : Type} {r : Reader α} {r₂ : Reader β} {r₃ : Reader γ} {bytes rest : Bytes}

/-- A sequence fails where its first reader does or, on what that one has left, where its second
one does. -/
theorem run_bind_eq_error_iff {f : α → Reader β} {e : BodyFault} :
    (r >>= f).run bytes = .error e ↔
      r.run bytes = .error e ∨
        ∃ x mid, r.run bytes = .ok (x, mid) ∧ (f x).run mid = .error e := by
  rw [StateT.run_bind, Except.bind_eq_error_iff]
  constructor
  · rintro (h | ⟨⟨x, mid⟩, h, h'⟩)
    · exact .inl h
    · exact .inr ⟨x, mid, h, h'⟩
  · rintro (h | ⟨x, mid, h, h'⟩)
    · exact .inl h
    · exact .inr ⟨(x, mid), h, h'⟩

theorem stable_pure (x : α) : Stable (pure x : Reader α) where
  ok := by
    intro bytes rest y h more
    obtain ⟨rfl, rfl⟩ := run_pure_eq_ok_iff.1 h
    exact run_pure_eq_ok_iff.2 ⟨rfl, rfl⟩
  error := by
    intro bytes f h
    rw [StateT.run_pure] at h
    exact absurd h Except.pure_ne_error

/-- A fault that was found in the bytes is one whatever comes after them. -/
theorem stable_throw (f : BodyFault) : Stable (throw f : Reader α) where
  ok := by
    intro bytes rest x h
    contradiction
  error := by
    intro bytes f' h _ more
    exact h

/-- **One stable reader after another** is stable. -/
theorem Stable.bind (h : Stable r) {f : α → Reader β} (hf : ∀ x, Stable (f x)) :
    Stable (r >>= f) where
  ok := by
    intro bytes rest y hy more
    obtain ⟨x, mid, hx, hrest⟩ := run_bind_eq_ok_iff.1 hy
    exact run_bind_eq_ok_iff.2 ⟨x, mid ++ more, h.ok hx more, (hf x).ok hrest more⟩
  error := by
    intro bytes e he hne more
    rcases run_bind_eq_error_iff.1 he with hfirst | ⟨x, mid, hx, hrest⟩
    · exact run_bind_eq_error_iff.2 (.inl (h.error hfirst hne more))
    · -- The first reader has the same value, and the second one finds the same fault.
      exact run_bind_eq_error_iff.2
        (.inr ⟨x, mid ++ more, h.ok hx more, (hf x).error hrest hne more⟩)

/-- One, two or three parts in a row are stable if each of them is. -/
theorem Stable.map (h : Stable r) (f : α → β) : Stable (do return f (← r)) :=
  h.bind fun _ => stable_pure _

theorem Stable.map₂ (h : Stable r) (h₂ : Stable r₂) (f : α → β → γ) :
    Stable (do return f (← r) (← r₂)) :=
  h.bind fun _ => h₂.map _

theorem Stable.map₃ (h : Stable r) (h₂ : Stable r₂) (h₃ : Stable r₃) (f : α → β → γ → δ) :
    Stable (do return f (← r) (← r₂) (← r₃)) :=
  h.bind fun _ => h₂.map₂ h₃ _

/-! ### The readers of the body -/

/-- **The only reader that can meet the end** of the bytes. -/
theorem stable_take (n : Nat) : Stable (take n) where
  ok := by
    intro bytes rest front h more
    obtain ⟨hlength, rfl⟩ := run_take_eq_ok_iff.1 h
    exact run_take_eq_ok_iff.2 ⟨hlength, List.append_assoc ..⟩
  error := by
    intro bytes f h hne
    -- A field fails in one way only, and this is the end of the bytes.
    have hrun : (take n).run bytes =
        if (bytes.take n).length = n then .ok (bytes.take n, bytes.drop n)
        else .error .endOfBytes := rfl
    rw [hrun] at h
    split at h
    · contradiction
    · cases h
      exact absurd rfl hne

/-- A number is a field of bytes, and any bytes make up a number. -/
theorem stable_number (width : Nat) : Stable (number width) :=
  (stable_take width).map _

theorem stable_count : Stable Reader.count :=
  stable_number 8

theorem stable_word : Stable Reader.word :=
  (stable_number 8).map _

/-- **A text** is stable: if its bytes are all there, then they alone say whether it is read. -/
theorem stable_text : Stable Reader.text := by
  refine stable_count.bind fun n => (stable_take n).bind fun front => ?_
  -- All bytes of the text are there by now, and are UTF-8 or not.
  cases Utf8.decode front with
  | ok cs => exact stable_pure _
  | error f => exact stable_throw _

theorem Stable.times (h : Stable r) (done : List α) (n : Nat) : Stable (times r done n) := by
  -- The values in `done` do not matter to what is still to be read.
  induction n generalizing done with
  | zero => exact stable_pure _
  | succ n ih => exact h.bind fun x => ih (x :: done)

/-- **A list** is stable if its elements are. -/
theorem Stable.sequence (h : Stable r) : Stable (sequence r) :=
  stable_count.bind fun n => h.times [] n

/-- **A choice** is stable if all of its readers are. A tag without a reader is a fault that no
more bytes can mend. -/
theorem stable_alternative {readers : List (Reader α)} (h : ∀ r ∈ readers, Stable r) :
    Stable (alternative readers) := by
  refine (stable_number 4).bind fun found => ?_
  cases hr : readers[found]? with
  | some r => exact h r (List.mem_of_getElem? hr)
  | none => exact stable_throw _

/-- A choice among values, without parts of their own. -/
theorem stable_place (all : List α) : Stable (alternative (all.map pure)) := by
  refine stable_alternative ?_
  intro r hr
  obtain ⟨x, -, rfl⟩ := List.mem_map.1 hr
  exact stable_pure x

end Combine

theorem stable_operand : Stable Reader.operand := by
  refine stable_alternative ?_
  simp only [List.forall_mem_cons]
  exact ⟨stable_word.map _, stable_text.map _, List.forall_mem_nil _⟩

theorem stable_messagePart : Stable Reader.messagePart := by
  refine stable_alternative ?_
  simp only [List.forall_mem_cons]
  exact ⟨stable_text.map _, stable_operand.map _, List.forall_mem_nil _⟩

theorem stable_instruction : Stable Reader.instruction := by
  have harithOp : Stable Reader.arithOp := stable_place _
  have hcondition : Stable Reader.condition := stable_place _
  -- Every reader has parts that are stable, in a row.
  refine stable_alternative ?_
  simp only [List.forall_mem_cons]
  refine ⟨?mov, ?inc, ?dec, ?arith, ?cmp, ?jmp, ?jumpIf, ?call, ?ret, ?msg, ?halt,
    List.forall_mem_nil _⟩
  case mov => exact stable_text.map₂ stable_operand _
  case inc => exact stable_text.map _
  case dec => exact stable_text.map _
  case arith => exact harithOp.map₃ stable_text stable_operand _
  case cmp => exact stable_operand.map₂ stable_operand _
  case jmp => exact stable_text.map _
  case jumpIf => exact hcondition.map₂ stable_text _
  case call => exact stable_text.map _
  case ret => exact stable_pure _
  case msg => exact stable_messagePart.sequence.map _
  case halt => exact stable_pure _

theorem stable_entry : Stable Reader.entry :=
  stable_text.map₂ stable_word _

/-- **The body of an image** is stable. -/
theorem stable_body : Stable Reader.body :=
  stable_instruction.sequence.map₂ stable_entry.sequence _

/-! ### The front of what was written -/

/-- **A value that is cut short** ends the bytes, wherever it is cut. -/
theorem Stable.run_take {α : Type} {r : Reader α} {fits : α → Prop} {write : α → Bytes}
    (h : Stable r) (hundoes : Undoes r fits write) {x : α} (hx : fits x) {k : Nat}
    (hk : k < (write x).length) : r.run ((write x).take k) = .error .endOfBytes := by
  have hwhole : r.run ((write x).take k ++ (write x).drop k) = .ok (x, []) := by
    rw [List.take_append_drop]
    exact (hundoes _ _ _).2 ⟨hx, (List.append_nil _).symm⟩
  -- Whatever the reader comes to on the front, it would come to on the whole.
  cases hrun : r.run ((write x).take k) with
  | ok result =>
    -- What was cut off would be left over by the whole.
    obtain ⟨y, rest⟩ := result
    have hmore := h.ok hrun ((write x).drop k)
    rw [hwhole] at hmore
    have hrest : [] = rest ++ (write x).drop k := congrArg Prod.snd (Except.ok.inj hmore)
    have hdrop : (write x).drop k = [] := (List.append_eq_nil_iff.1 hrest.symm).2
    exact absurd (List.drop_eq_nil_iff.1 hdrop) (Nat.not_le_of_lt hk)
  | error f =>
    by_cases hf : f = .endOfBytes
    · rw [hf]
    · -- What was wrong would be wrong with the whole.
      have hmore := h.error hrun hf ((write x).drop k)
      rw [hwhole] at hmore
      contradiction

end Reader

/-! ### The fixed parts -/

variable {bytes rest : Bytes} {instructions : List Instruction}
  {entries : List (String × Word)} {p : Program} {e : Error}

theorem expect_of_length_lt {part : Part} {fixed : Bytes} (h : bytes.length < fixed.length) :
    expect part fixed bytes = .error (.malformed part) := by
  unfold expect
  rw [if_neg]
  intro hfixed
  have hle := (List.isPrefixOf_iff_prefix.1 hfixed).length_le
  omega

/-- A version line without its end is none. -/
theorem expectVersion_of_notMem (h : ∀ b ∈ bytes, b ≠ 0x0A) :
    expectVersion bytes = .error (.malformed .version) := by
  have hline : bytes.dropWhile (· ≠ 0x0A) = [] := by
    rw [List.dropWhile_eq_nil_iff]
    intro b hb
    exact decide_eq_true (h b hb)
  unfold expectVersion
  rw [hline]

/-- The version line is not read from less than all of it. -/
theorem expectVersion_take {k : Nat} (hk : k < versionLine.length) :
    expectVersion (versionLine.take k) = .error (.malformed .version) := by
  -- The only line end in the line is its last byte.
  have hversion : ∀ b ∈ Utf8.encode version.toList, b ≠ 0x0A := by decide +kernel
  have hle : k ≤ (Utf8.encode version.toList).length := by
    rw [versionLine, List.length_append, List.length_singleton] at hk
    exact Nat.le_of_lt_succ hk
  refine expectVersion_of_notMem ?_
  intro b hb
  rw [versionLine, List.take_append_of_le_length hle] at hb
  exact hversion b (List.mem_of_mem_take hb)

/-! ### The first part that is missing -/

/-- The error of a decoder is that of the first part that fails, and this is the magic line first
of all. -/
theorem decode_of_expect_magic (h : expect .magic magic bytes = .error e) :
    decode bytes = .error e := by
  rw [decode, h]
  rfl

/-- Behind the magic line, this is the version line. -/
theorem decode_of_expectVersion (h : expectVersion bytes = .error e) :
    decode (magic ++ bytes) = .error e := by
  rw [decode, expect_eq_ok_iff.2 rfl]
  change expectVersion bytes >>= _ = _
  rw [h]
  rfl

/-- Behind the lines at its front, an image is its body and its trailer. -/
theorem decode_lines_append (bytes : Bytes) :
    decode (magic ++ (versionLine ++ bytes)) = (do
      let ((instructions, entries), rest) ← (Reader.body.run bytes).mapError Error.body
      let _ ← expect .trailer trailer rest
      program instructions entries) := by
  rw [decode, expect_eq_ok_iff.2 rfl]
  change expectVersion (versionLine ++ bytes) >>= _ = _
  rw [expectVersion_eq_ok_iff.2 rfl]
  rfl

/-- Behind both lines, this is the body. -/
theorem decode_of_body {f : BodyFault} (h : Reader.body.run bytes = .error f) :
    decode (magic ++ (versionLine ++ bytes)) = .error (.body f) := by
  rw [decode_lines_append, h]
  rfl

/-- Behind the body, this is the trailer. -/
theorem decode_of_expect_trailer {x : List Instruction × List (String × Word)}
    (hbody : Reader.body.run bytes = .ok (x, rest))
    (h : expect .trailer trailer rest = .error e) :
    decode (magic ++ (versionLine ++ bytes)) = .error e := by
  rw [decode_lines_append, hbody]
  change expect .trailer trailer rest >>= _ = _
  rw [h]
  rfl

/-! ### The whole image -/

/-- **The error that tells where an image was cut**: the bytes end after the first `k`, and the
body of the image has `size` bytes. -/
def cutError (size k : Nat) : Error :=
  if k < magic.length then .malformed .magic
  else if k < magic.length + versionLine.length then .malformed .version
  else if k < magic.length + versionLine.length + size then .body .endOfBytes
  else .malformed .trailer

open Reader (BodyFits stable_body undoes_body)

/-- **The bytes end in one of the four parts**, and there is one case for each of them. -/
theorem decode_take (hfits : BodyFits (instructions, entries)) {k : Nat}
    (hk : k < (write instructions entries).length) :
    decode ((write instructions entries).take k) =
      .error (cutError (body instructions entries).length k) := by
  have himage := write_append instructions entries []
  rw [List.append_nil, List.append_nil] at himage
  rw [himage] at hk ⊢
  unfold cutError
  split
  case isTrue hmagic =>
    rw [List.take_append_of_le_length (Nat.le_of_lt hmagic)]
    refine decode_of_expect_magic (expect_of_length_lt ?_)
    rw [List.length_take]
    omega
  case isFalse hmagic =>
    -- The part is there, and the bytes end in what comes after it; the same for the next ones.
    obtain ⟨k, rfl⟩ := Nat.exists_eq_add_of_le (Nat.le_of_not_lt hmagic)
    rw [List.take_length_add_append]
    split
    case isTrue hversion =>
      have hversion : k < versionLine.length := Nat.lt_of_add_lt_add_left hversion
      rw [List.take_append_of_le_length (Nat.le_of_lt hversion)]
      exact decode_of_expectVersion (expectVersion_take hversion)
    case isFalse hversion =>
      have hversion : versionLine.length ≤ k := by omega
      obtain ⟨k, rfl⟩ := Nat.exists_eq_add_of_le hversion
      rw [List.take_length_add_append]
      split
      case isTrue hbody =>
        -- The only part that is not told apart by its length.
        have hbody : k < (body instructions entries).length := by omega
        rw [List.take_append_of_le_length (Nat.le_of_lt hbody)]
        exact decode_of_body (stable_body.run_take undoes_body hfits hbody)
      case isFalse hbody =>
        -- The body is there, and is read with what is left of the trailer behind it.
        have hbody : (body instructions entries).length ≤ k := by omega
        obtain ⟨k, rfl⟩ := Nat.exists_eq_add_of_le hbody
        rw [List.take_length_add_append]
        have hread : Reader.body.run (body instructions entries ++ trailer.take k) =
            .ok ((instructions, entries), trailer.take k) :=
          (undoes_body _ _ _).2 ⟨hfits, rfl⟩
        refine decode_of_expect_trailer hread (expect_of_length_lt ?_)
        simp only [List.length_append] at hk
        rw [List.length_take]
        omega

/-- **A cut image is never accepted, and the error tells where it was cut.** This holds of the
image of every program that fits, with its label entries in any order, whether or not its labels
mark places of it: if the bytes end in the magic line or in the version line, then that part is
reported; if they end in the body, wherever that is, then the end of the bytes is; and otherwise
the trailer is. -/
theorem decode_take_write (hfits : p.Fits) (hperm : entries.Perm p.labels.toList) {k : Nat}
    (hk : k < (write p.instructions.toList entries).length) :
    decode ((write p.instructions.toList entries).take k) =
      .error (cutError (body p.instructions.toList entries).length k) ∧
    BodyFault.endOfBytes.message = "io error: failed to fill whole buffer" :=
  ⟨decode_take (bodyFits_of_perm hfits hperm) hk, rfl⟩

/-- An image that is cut inside a character of a label, and that names a label outside the program:
neither is reported. -/
theorem decode_take_write_labelledProgram :
    ∃ (p : Program) (entries : List (String × Word)) (k : Nat),
      p = labelledProgram 3 ∧ entries = [("top", -1), ("é", 3)] ∧ k = 40 ∧
      p.Fits ∧ entries.Perm p.labels.toList ∧ k < (write p.instructions.toList entries).length ∧
      cutError (body p.instructions.toList entries).length k = .body .endOfBytes ∧
      decode ((write p.instructions.toList entries).take k) =
        .error (cutError (body p.instructions.toList entries).length k) ∧
      BodyFault.endOfBytes.message = "io error: failed to fill whole buffer" := by
  refine ⟨_, _, _, rfl, rfl, rfl, ?fits, ?perm, ?length, ?cut,
    decode_take_write ?fits ?perm ?length⟩
  case fits => decide +kernel
  case perm => decide +kernel
  case length => decide +kernel
  case cut => decide +kernel

end TinyAsm.Image

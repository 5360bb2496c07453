import TinyAsm.Image.Decode
import TinyAsm.Proofs.Image.Reader
import TinyAsm.Proofs.Program.Labels

/-!
# Round trips of images

The two directions in which images and programs correspond.

* `decode_write_of_perm` — the image of a program, with its label entries in any order and any
  bytes behind it, is read back as the program, unless a label marks no place;
* `write_of_decode` — bytes that are read as a program are an image, and of one program only.

Both follow from `decode_eq_ok_iff`. The fixed parts are compared byte by byte, except for the
version: that one is compared as text, after a lossy decoding, and still no other bytes pass
(`expectVersion_eq_ok_iff`).
-/

namespace TinyAsm.Image

open Utf8 (Bytes)

variable {bytes rest : Bytes} {instructions : List Instruction}
  {entries : List (String × Word)} {p : Program} {e : Error}

/-! ### The fixed parts -/

/-- A fixed part is found only where its bytes stand. -/
theorem expect_eq_ok_iff {part : Part} {fixed : Bytes} :
    expect part fixed bytes = .ok rest ↔ bytes = fixed ++ rest := by
  unfold expect
  constructor
  · intro h
    split at h
    · next hfixed =>
      cases h
      obtain ⟨rest, rfl⟩ := List.isPrefixOf_iff_prefix.1 hfixed
      rw [List.drop_left]
    · contradiction
  · rintro rfl
    rw [if_pos (List.isPrefixOf_iff_prefix.2 (List.prefix_append fixed rest)), List.drop_left]

/-- The bytes of the version line. -/
def versionLine : Bytes := Utf8.encode version.toList ++ [0x0A]

/-- What is left from a byte on follows it, and what stands before it is another byte. -/
theorem eq_append_of_dropWhile {b b' : UInt8} (h : bytes.dropWhile (· ≠ b) = b' :: rest) :
    bytes = bytes.takeWhile (· ≠ b) ++ [b] ++ rest := by
  have hb : b' = b := by
    have := List.head?_dropWhile_not (· ≠ b) bytes
    rw [h] at this
    simpa using this
  calc
    bytes = bytes.takeWhile (· ≠ b) ++ bytes.dropWhile (· ≠ b) :=
      List.takeWhile_append_dropWhile.symm
    _ = bytes.takeWhile (· ≠ b) ++ (b :: rest) := by rw [h, hb]
    _ = bytes.takeWhile (· ≠ b) ++ [b] ++ rest := List.append_cons ..

/-- **The version line is the only one that passes**, although it is compared as text: a
fault would have left a replacement character, which the version does not have. -/
theorem expectVersion_eq_ok_iff :
    expectVersion bytes = .ok rest ↔ bytes = versionLine ++ rest := by
  unfold expectVersion
  constructor
  · intro h
    split at h
    · contradiction
    · next b rest' hdrop =>
      simp only at h
      split at h
      · next hfound =>
        cases h
        -- What was compared is the text; the bytes follow, since nothing in it was replaced.
        have htext : Utf8.decodeLossy (bytes.takeWhile (· ≠ 0x0A)) = version.toList := by
          rw [← hfound, String.toList_ofList]
        have hline : bytes.takeWhile (· ≠ 0x0A) = Utf8.encode version.toList := by
          rw [← htext]
          refine Utf8.eq_encode_of_decodeLossy ?_
          rw [htext]
          decide +kernel
        -- The line ended at a line end, and the bytes that are left come after this.
        rw [versionLine, ← hline]
        exact eq_append_of_dropWhile hdrop
      · contradiction
  · rintro rfl
    -- The version has no line end in it, and so the line ends where it should.
    have hline : ∀ b ∈ Utf8.encode version.toList, decide (b ≠ 0x0A) = true := by decide +kernel
    rw [versionLine, List.append_assoc, List.dropWhile_append_of_pos hline,
      List.takeWhile_append_of_pos hline]
    simp [Utf8.decodeLossy_encode]

/-! ### The whole image -/

section Whole

open Reader (BodyFits undoes_body)

variable {instructions' : List Instruction} {entries' : List (String × Word)} {rest' : Bytes}

/-- The parts of an image in the order in which they are read, and then what is not read. -/
theorem write_append (instructions : List Instruction) (entries : List (String × Word))
    (rest : Bytes) :
    write instructions entries ++ rest =
      magic ++ (versionLine ++ (body instructions entries ++ (trailer ++ rest))) := by
  have hversion : Utf8.encode (version.toList ++ ['\n']) = versionLine := by
    rw [Utf8.encode_append]
    rfl
  rw [write, hversion]
  simp only [List.append_assoc]

/-- Whatever is written is read back, and what comes of it is up to the labels. -/
theorem decode_write (h : BodyFits (instructions, entries)) :
    decode (write instructions entries ++ rest) = program instructions entries := by
  have hbody : (Reader.body.run (body instructions entries ++ (trailer ++ rest))).mapError
      Error.body = .ok ((instructions, entries), trailer ++ rest) :=
    Except.mapError_eq_ok_iff.2 ((undoes_body _ _ _).2 ⟨h, rfl⟩)
  rw [write_append, decode, expect_eq_ok_iff.2 rfl]
  simp only [bind, Except.bind, expectVersion_eq_ok_iff.2 rfl, hbody, expect_eq_ok_iff.2 rfl]

/-- **An image is accepted if** it is written from parts that make a program. -/
theorem decode_eq_ok_iff :
    decode bytes = .ok p ↔
      ∃ instructions entries rest, BodyFits (instructions, entries) ∧
        bytes = write instructions entries ++ rest ∧ program instructions entries = .ok p := by
  constructor
  · intro h
    simp only [decode, Except.bind_eq_ok_iff, Except.mapError_eq_ok_iff] at h
    obtain ⟨bytes₁, hmagic, bytes₂, hversion, ⟨⟨instructions, entries⟩, bytes₃⟩, hbody, rest,
      htrailer, hp⟩ := h
    -- Each part that was taken off stands in front of the next.
    obtain rfl := expect_eq_ok_iff.1 hmagic
    obtain rfl := expectVersion_eq_ok_iff.1 hversion
    obtain ⟨hfits, rfl⟩ := (undoes_body _ _ _).1 hbody
    obtain rfl := expect_eq_ok_iff.1 htrailer
    exact ⟨instructions, entries, rest, hfits, (write_append ..).symm, hp⟩
  · rintro ⟨instructions, entries, rest, hfits, rfl, hp⟩
    rw [decode_write hfits, hp]

/-- The bytes of an image say what it was written from and where it ends. -/
theorem write_append_inj (h : BodyFits (instructions, entries))
    (h' : BodyFits (instructions', entries'))
    (heq : write instructions entries ++ rest = write instructions' entries' ++ rest') :
    instructions = instructions' ∧ entries = entries' ∧ rest = rest' := by
  rw [write_append, write_append] at heq
  -- The lines at the front are the same bytes in both images.
  have heq := List.append_cancel_left (List.append_cancel_left heq)
  obtain ⟨hparts, hrest⟩ := undoes_body.inj h h' heq
  cases hparts
  exact ⟨rfl, rfl, List.append_cancel_left hrest⟩

end Whole

/-! ### The program of its parts -/

/-- **Parts make a program** if every label marks a place of it. This is the table that is
checked, and so of two entries with one name only the last one counts. -/
theorem program_eq_ok_iff :
    program instructions entries = .ok p ↔
      p = ⟨instructions.toArray, Std.ExtTreeMap.ofList entries compare⟩ ∧ p.LabelsInRange := by
  unfold program
  simp only
  constructor
  · intro h
    split at h
    · contradiction
    · next hnone =>
      cases h
      refine ⟨rfl, Program.labelsInRange_iff.2 fun e he => ?_⟩
      -- No entry of the table was found to be out of range.
      simpa using List.find?_eq_none.1 hnone e he
  · rintro ⟨rfl, h⟩
    split
    · next name position hsome =>
      have hout := List.find?_some hsome
      rw [Program.labelsInRange_iff.1 h _ (List.mem_of_find?_eq_some hsome)] at hout
      contradiction
    · rfl

/-- Parts that make no program have a label that marks no place, and it is reported. -/
theorem exists_program_eq_error (instructions : List Instruction)
    (entries : List (String × Word))
    (h : ¬Program.LabelsInRange ⟨instructions.toArray, Std.ExtTreeMap.ofList entries compare⟩) :
    ∃ name position, (Std.ExtTreeMap.ofList entries compare)[name]? = some position ∧
      Program.isLabelPosition instructions.length position = false ∧
      program instructions entries = .error (.labelOutOfRange name position) := by
  unfold program
  simp only
  -- Either the search has found a label that marks no place, or all of them do.
  split
  · next name position hsome =>
    have hout := List.find?_some hsome
    have hmem := List.mem_of_find?_eq_some hsome
    refine ⟨name, position, Std.ExtTreeMap.mem_toList_iff_getElem?_eq_some.1 hmem, ?_, rfl⟩
    simpa [Program.size] using hout
  · next hnone =>
    refine absurd (Program.labelsInRange_iff.2 fun e he => ?_) h
    simpa using List.find?_eq_none.1 hnone e he

/-! ### There and back -/

open Reader (BodyFits)

theorem bodyFits_of_perm (h : p.Fits) (hperm : entries.Perm p.labels.toList) :
    BodyFits (p.instructions.toList, entries) := by
  refine ⟨h.instructions, ?_, fun e he => ?_⟩
  · rw [hperm.length_eq]
    exact h.labels.1
  · exact h.labels.2 e (hperm.mem_iff.1 he)

/-- **Decoding undoes encoding.** The image of a program that fits, with its label entries in
any order and with any bytes behind it, is read back as the program if every label marks a
place of it; otherwise one of the labels that do not is reported. -/
theorem decode_write_of_perm (hfits : p.Fits) (hperm : entries.Perm p.labels.toList)
    (rest : Bytes) :
    (p.LabelsInRange → decode (write p.instructions.toList entries ++ rest) = .ok p) ∧
      (¬p.LabelsInRange → ∃ name position, p.labels[name]? = some position ∧
        Program.isLabelPosition p.size position = false ∧
        decode (write p.instructions.toList entries ++ rest) =
          .error (.labelOutOfRange name position)) := by
  -- The order of the entries is forgotten in the table.
  have hlabels : Std.ExtTreeMap.ofList entries compare = p.labels := Table.ofList_of_perm hperm
  rw [decode_write (bodyFits_of_perm hfits hperm)]
  constructor
  · intro h
    exact program_eq_ok_iff.2 ⟨by rw [hlabels], h⟩
  · intro h
    have herror := exists_program_eq_error p.instructions.toList entries (by rwa [hlabels])
    rwa [hlabels] at herror

/-- A program with texts that are not ASCII, with a label at the top and one at `position`. -/
def labelledProgram (position : Word) : Program :=
  ⟨#[.call "é", .msg [.text "π = ", .value (.literal (-3))], .halt],
    ((∅ : Table).insert "é" position).insert "top" (-1)⟩

/-- Both cases with bytes behind the image: the label `"é"` marks the last place of the program,
and the one behind it. -/
theorem decode_write_labelledProgram :
    ((labelledProgram 2).Fits ∧ (labelledProgram 2).LabelsInRange ∧
      [("é", (2 : Word)), ("top", -1)].Perm (labelledProgram 2).labels.toList ∧
      decode (write (labelledProgram 2).instructions.toList [("é", 2), ("top", -1)] ++ [7]) =
        .ok (labelledProgram 2)) ∧
    ((labelledProgram 3).Fits ∧ ¬(labelledProgram 3).LabelsInRange ∧
      [("é", (3 : Word)), ("top", -1)].Perm (labelledProgram 3).labels.toList ∧
      ∃ name position, (labelledProgram 3).labels[name]? = some position ∧
        Program.isLabelPosition (labelledProgram 3).size position = false ∧
        decode (write (labelledProgram 3).instructions.toList [("é", 3), ("top", -1)] ++ [7]) =
          .error (.labelOutOfRange name position)) := by
  have hfits₂ : (labelledProgram 2).Fits := by decide +kernel
  have hfits₃ : (labelledProgram 3).Fits := by decide +kernel
  have hin : (labelledProgram 2).LabelsInRange := by decide +kernel
  have hout : ¬(labelledProgram 3).LabelsInRange := by decide +kernel
  have hperm₂ : [("é", (2 : Word)), ("top", -1)].Perm (labelledProgram 2).labels.toList := by
    decide +kernel
  have hperm₃ : [("é", (3 : Word)), ("top", -1)].Perm (labelledProgram 3).labels.toList := by
    decide +kernel
  exact ⟨⟨hfits₂, hin, hperm₂, (decode_write_of_perm hfits₂ hperm₂ [7]).1 hin⟩,
    hfits₃, hout, hperm₃, (decode_write_of_perm hfits₃ hperm₃ [7]).2 hout⟩

/-- **Nothing but images is accepted.** Bytes that are read as a program are the image of a
list of instructions and a list of label entries, with some bytes behind it, and of no other
lists. The program has these instructions, every name has the value of its last entry, and
every label marks a place. If the names are distinct and nothing comes after the image, then
it is the image of the program with its label entries in the order in which they stood. -/
theorem write_of_decode (h : decode bytes = .ok p) :
    ∃ instructions entries rest, BodyFits (instructions, entries) ∧
      bytes = write instructions entries ++ rest ∧
      (∀ instructions' entries' rest', BodyFits (instructions', entries') →
        bytes = write instructions' entries' ++ rest' →
          instructions' = instructions ∧ entries' = entries ∧ rest' = rest) ∧
      p.instructions.toList = instructions ∧
      (∀ name, p.labels[name]? = entries.reverse.lookup name) ∧
      p.LabelsInRange ∧
      ((entries.map Prod.fst).Nodup → rest = [] →
        entries.Perm p.labels.toList ∧ bytes = write p.instructions.toList entries) := by
  -- The parts are those that the decoder has read.
  obtain ⟨instructions, entries, rest, hfits, rfl, hp⟩ := decode_eq_ok_iff.1 h
  obtain ⟨rfl, hl⟩ := program_eq_ok_iff.1 hp
  refine ⟨instructions, entries, rest, hfits, rfl, ?unique, rfl, ?labels, hl, ?distinct⟩
  case unique =>
    intro instructions' entries' rest' hfits' heq
    exact write_append_inj hfits' hfits heq.symm
  case labels =>
    intro name
    exact Table.getElem?_ofList
  case distinct =>
    rintro hnodup rfl
    exact ⟨Table.perm_toList_ofList hnodup, List.append_nil _⟩

/-- An image with two entries for one name: only the second is in range, and counts. -/
theorem write_of_decode_redeclaring :
    ∃ instructions entries rest, BodyFits (instructions, entries) ∧
      write [.jmp "a"] [("a", 5), ("a", -1)] ++ [7] = write instructions entries ++ rest ∧
      (∀ instructions' entries' rest', BodyFits (instructions', entries') →
        write [.jmp "a"] [("a", 5), ("a", -1)] ++ [7] = write instructions' entries' ++ rest' →
          instructions' = instructions ∧ entries' = entries ∧ rest' = rest) ∧
      [.jmp "a"] = instructions ∧
      (∀ name, ((∅ : Table).insert "a" (-1))[name]? = entries.reverse.lookup name) ∧
      Program.LabelsInRange ⟨#[.jmp "a"], (∅ : Table).insert "a" (-1)⟩ ∧
      ((entries.map Prod.fst).Nodup → rest = [] →
        entries.Perm ((∅ : Table).insert "a" (-1)).toList ∧
          write [.jmp "a"] [("a", 5), ("a", -1)] ++ [7] = write [.jmp "a"] entries) := by
  have h : decode (write [.jmp "a"] [("a", 5), ("a", -1)] ++ [7]) =
      .ok ⟨#[.jmp "a"], (∅ : Table).insert "a" (-1)⟩ := by
    rw [decode_write ⟨by decide, by decide⟩]
    -- The entry `("a", 5)` is out of range, and is overwritten.
    exact program_eq_ok_iff.2 ⟨by decide +kernel, by decide +kernel⟩
  exact write_of_decode h

end TinyAsm.Image

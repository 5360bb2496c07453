import TinyAsm.CommandLine.Perform
import TinyAsm.Proofs.Image.RoundTrip
import TinyAsm.Proofs.Program.Range
import TinyAsm.Proofs.Program.Size

/-!
# An image runs as its text does

There are two ways to run a text: at once, or by making an image of it and running the image.
On the second way the program is written, read back, and its labels are checked. None of this
can fail for a program that was assembled, and none of it changes the program
(`Image.decode_write_of_assemble`). So both ways come to the same run, and
`image_runs_as_text` puts this together with what makes it true: assembling never declares a
label out of range.
-/

namespace TinyAsm

variable {source : String} {p : Program} {entries : List (String × Word)} {c : Config}

/-- **The image of an assembled program is read back**, whatever the order of its labels. -/
theorem Image.decode_write_of_assemble (h : Program.assemble source = .ok p)
    (hsource : source.utf8ByteSize < Word.indexCount) (hperm : entries.Perm p.labels.toList) :
    decode (write p.instructions.toList entries) = .ok p := by
  have hsize : p.size ≤ Word.indexCount :=
    Nat.le_trans (Program.size_le_of_assemble h) (Nat.succ_le_of_lt hsource)
  -- The order of the entries is forgotten in the table.
  have hlabels : Std.ExtTreeMap.ofList entries compare = p.labels := Table.ofList_of_perm hperm
  -- Nothing comes behind the image here.
  have hdecode : decode (write p.instructions.toList entries) =
      program p.instructions.toList entries := by
    have hbytes : write p.instructions.toList entries =
        write p.instructions.toList entries ++ [] := (List.append_nil _).symm
    rw [hbytes, decode_write (bodyFits_of_perm (Program.fits_of_assemble h hsource) hperm)]
  rw [hdecode, program_eq_ok_iff, hlabels]
  -- The assembler has declared labels in the program only.
  exact ⟨rfl, Program.labelsInRange_of_assemble h hsize⟩

/-- The command that runs an image responds to the run of the program in it. -/
theorem Response.ofImage_of_decode {bytes : Utf8.Bytes} (h : Image.decode bytes = .ok p) :
    Response.ofImage c bytes = .ofRun .run (Machine.run p c {}) := by
  rw [ofImage, h]

/-- The command that runs a text responds to the run of its program. -/
theorem Response.ofSource_of_assemble (h : Program.assemble source = .ok p) :
    Response.ofSource c source =
      .ofRun (fun e => .interpret (.run e)) (Machine.run p c {}) := by
  rw [ofSource, runSource_of_assemble_eq_ok h]

/-- **An image runs as its text does.** However lines were put into a program, a chunk at a
time and each chunk up to its first bad line, every label marks a place of the program.

So the image of an assembled text, with its label entries in any order, is read back as the
program of the text. The run of that program is the run of the text, with the same result,
the same machine left and the same trace, and both commands respond to it. A text that cannot
be assembled is not run either, and the error of the assembler is what comes of it.

A text in memory has less than `Word.indexCount` bytes, and a list in memory has no more
elements than that. -/
theorem image_runs_as_text :
    (∀ chunks : List (List Line), (Program.extendEach {} chunks).size ≤ Word.indexCount →
      (Program.extendEach {} chunks).LabelsInRange) ∧
    (∀ (source : String) (p : Program) (entries : List (String × Word)) (c : Config),
      source.utf8ByteSize < Word.indexCount → Program.assemble source = .ok p →
      entries.Perm p.labels.toList →
        Image.decode (Image.write p.instructions.toList entries) = .ok p ∧
        runSource source c = .ok (Machine.run p c {}) ∧
        interpret source c = (Machine.run p c {}).result.mapError .run ∧
        Response.ofImage c (Image.write p.instructions.toList entries) =
          .ofRun .run (Machine.run p c {}) ∧
        Response.ofSource c source =
          .ofRun (fun e => .interpret (.run e)) (Machine.run p c {})) ∧
    ∀ (source : String) (e : AssemblyError) (c : Config), Program.assemble source = .error e →
      interpret source c = .error (.assembly e) := by
  refine ⟨?chunks, ?image, ?bad⟩
  case chunks =>
    intro chunks hsize
    exact Program.labelsInRange_empty.extendEach hsize
  case image =>
    -- The program that is read back is the one that was written, and so both ways come to one
    -- run.
    intro source p entries c hsource h hperm
    have hdecode := Image.decode_write_of_assemble h hsource hperm
    have hrun : runSource source c = .ok (Machine.run p c {}) := runSource_of_assemble_eq_ok h
    refine ⟨hdecode, hrun, ?_, Response.ofImage_of_decode hdecode,
      Response.ofSource_of_assemble h⟩
    rw [interpret, hrun]
  case bad =>
    intro source e c h
    rw [interpret, runSource_of_assemble_eq_error h]

/-- Lines in chunks: a label at the top and a bad line in the first, and a label that is
declared again, at the end, in the second. -/
def brokenChunks : List (List Line) :=
  [[⟨1, "top:"⟩, ⟨2, "again:"⟩, ⟨3, "inc a"⟩, ⟨4, "inc"⟩, ⟨5, "dec a"⟩],
    [⟨1, "jmp again"⟩, ⟨2, "again:"⟩], [⟨1, "again"⟩]]

/-- A text with a label at the top, and one at the end that is declared twice. -/
def loopingText : String :=
  "top:\nend:\ninc a\ncmp a, 3\njge end\njmp top\nend:"

/-- Both texts and the chunks in one: the program runs to its end, the chunks stop at bad lines,
and the second line of the bad text is reported. -/
theorem image_runs_as_loopingText :
    (Program.extendEach {} brokenChunks).size ≤ Word.indexCount ∧
    (Program.extendEach {} brokenChunks).LabelsInRange ∧
    loopingText.utf8ByteSize < Word.indexCount ∧
    (∃ p, Program.assemble loopingText = .ok p ∧
      [("top", (-1 : Word)), ("end", 3)].Perm p.labels.toList ∧
      Image.decode (Image.write p.instructions.toList [("top", -1), ("end", 3)]) = .ok p ∧
      runSource loopingText {} = .ok (Machine.run p {} {}) ∧
      interpret loopingText {} = (Machine.run p {} {}).result.mapError .run ∧
      Response.ofImage {} (Image.write p.instructions.toList [("top", -1), ("end", 3)]) =
        .ofRun .run (Machine.run p {} {}) ∧
      Response.ofSource {} loopingText =
        .ofRun (fun e => .interpret (.run e)) (Machine.run p {} {})) ∧
    Program.assemble "ret\n inc 1" = .error ⟨2, .expectedRegister 1⟩ ∧
    interpret "ret\n inc 1" {} = .error (.assembly ⟨2, .expectedRegister 1⟩) := by
  obtain ⟨hchunks, himage, hbad⟩ := image_runs_as_text
  have hsize : (Program.extendEach {} brokenChunks).size = 2 := by decide +kernel
  have hle : (Program.extendEach {} brokenChunks).size ≤ Word.indexCount := by
    rw [hsize]
    decide
  have hsource : loopingText.utf8ByteSize < Word.indexCount := by decide +kernel
  have herror : Program.assemble "ret\n inc 1" = .error ⟨2, .expectedRegister 1⟩ := by
    decide +kernel
  have hlabels : (Program.assemble loopingText).toOption.map (·.labels.toList) =
      some [("end", 3), ("top", -1)] := by
    decide +kernel
  refine ⟨hle, hchunks brokenChunks hle, hsource, ?_, herror, hbad _ _ {} herror⟩
  -- The program is never written out; its labels are all that is evaluated of it.
  cases hp : Program.assemble loopingText with
  | error e =>
    rw [hp] at hlabels
    contradiction
  | ok p =>
    rw [hp] at hlabels
    have hentries : p.labels.toList = [("end", 3), ("top", -1)] := Option.some.inj hlabels
    -- The entries are given in another order than that of the table.
    have hperm : [("top", (-1 : Word)), ("end", 3)].Perm p.labels.toList := by
      rw [hentries]
      exact List.Perm.swap _ _ _
    exact ⟨p, rfl, hperm, himage loopingText p _ {} hsource hp hperm⟩

end TinyAsm

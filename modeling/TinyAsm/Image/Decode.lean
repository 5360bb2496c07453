import TinyAsm.Image.Reader

/-!
# Reading an image

`Image.decode` reads the program of an image. It checks the parts in the order in which
they stand: the magic line, the version, the body and the trailer. Bytes after the
trailer are ignored. At last every label has to mark a place of the program.

If a name has several entries in the label table, the last one counts.
-/

namespace TinyAsm.Image

open Utf8 (Bytes)

/-- The parts of an image that hold fixed text. -/
inductive Part where
  | magic
  | version
  | trailer
deriving DecidableEq, Repr

/-- The name of a part. -/
def Part.name : Part → String
  | magic => "AsmProgramDecl"
  | version => "Version"
  | trailer => "ProgEnd"

/-- Why a byte sequence is no image. -/
inductive Error where
  /-- A part is not there. -/
  | malformed (part : Part)
  /-- The image has another version of the format. -/
  | versionMismatch (found : String)
  | body (f : BodyFault)
  /-- A label marks no place of the program. -/
  | labelOutOfRange (name : String) (position : Word)
deriving DecidableEq, Repr

/-- The text of an error. -/
def Error.message : Error → String
  | malformed part => "malformed program image (" ++ part.name ++ ")"
  | versionMismatch found => "program image built by version " ++ found
  | body f => "could not decode program: " ++ f.message
  | labelOutOfRange name position =>
    "label '" ++ name ++ "' points outside the program (" ++ Decimal.ofWord position ++ ")"

/-- The bytes after a part with the given fixed bytes. -/
def expect (part : Part) (fixed bytes : Bytes) : Except Error Bytes :=
  if fixed.isPrefixOf bytes then .ok (bytes.drop fixed.length) else .error (.malformed part)

/-- The bytes after the version line. The version is compared as text, whatever its
bytes. -/
def expectVersion (bytes : Bytes) : Except Error Bytes :=
  match bytes.dropWhile (· ≠ 0x0A) with
  | [] => .error (.malformed .version)
  | _ :: rest =>
    let found := String.ofList (Utf8.decodeLossy (bytes.takeWhile (· ≠ 0x0A)))
    if found = version then .ok rest else .error (.versionMismatch found)

/-- The program with the given instructions and label entries, if every label marks a
place of it. Of several labels that do not, the first by name is reported. -/
def program (instructions : List Instruction) (entries : List (String × Word)) :
    Except Error Program :=
  let p : Program := ⟨instructions.toArray, Std.ExtTreeMap.ofList entries compare⟩
  match p.labels.toList.find? fun e => !Program.isLabelPosition p.size e.2 with
  | some (name, position) => .error (.labelOutOfRange name position)
  | none => .ok p

/-- The program of an image. -/
def decode (bytes : Bytes) : Except Error Program := do
  let bytes ← expect .magic magic bytes
  let bytes ← expectVersion bytes
  let ((instructions, entries), bytes) ← (Reader.body.run bytes).mapError Error.body
  let _ ← expect .trailer trailer bytes
  -- The labels are looked at after the trailer.
  program instructions entries

end TinyAsm.Image

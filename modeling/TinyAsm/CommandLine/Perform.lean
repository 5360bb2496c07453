import TinyAsm.CommandLine.Command

/-!
# Performing a command

`Command.perform` carries a command out on a storage. It reads one file, and `build`
also writes one: the image goes to the path of the text, cut at its last point, with
`.asmc` put after it (`imagePath`).

The result of a command is a `Response`. It keeps the trace of the program, which is there
however the run ended.
-/

namespace TinyAsm

open Utf8 (Bytes)

/-- How a command was completed. -/
inductive Completion where
  /-- A program was run to this outcome. -/
  | ran (o : Outcome)
  /-- An image was written to this path. -/
  | wrote (path : String) (instructions : Nat)
deriving DecidableEq, Repr

/-- The result of a command, with what was traced on the way. -/
structure Response where
  result : Except CommandError Completion
  trace : List TraceEntry := []
deriving DecidableEq

/-- A text up to its last point, wherever that is; all of it if there is none. -/
def beforeLastPoint (cs : List Char) : List Char :=
  match cs.reverse.dropWhile (· ≠ '.') with
  | [] => cs
  | _ :: front => front.reverse

/-- The path of the image of a program text. -/
def imagePath (file : String) : String :=
  String.ofList (beforeLastPoint file.toList) ++ ".asmc"

namespace Response

/-- The response to a run of a program, an error of it being named by `name`. -/
def ofRun (name : RunError → CommandError) (r : Run) : Response where
  result := (r.result.map Completion.ran).mapError name
  trace := r.trace

/-- The response to something that failed before any program was run. -/
def failure (e : CommandError) : Response where
  result := .error e

/-- The response to running a program text. -/
def ofSource (c : Config) (source : String) : Response :=
  match runSource source c with
  | .error e => failure (.interpret (.assembly e))
  | .ok r => ofRun (fun e => .interpret (.run e)) r

/-- The response to running the program of an image. -/
def ofImage (c : Config) (bytes : Bytes) : Response :=
  match Image.decode bytes with
  | .error e => failure (.image e)
  | .ok p => ofRun .run (Machine.run p c {})

end Response

namespace Storage

variable {m : Type → Type} [Monad m]

/-- The bytes of a file that has to be there. -/
def load (s : Storage m) (file : String) : m (Except CommandError Bytes) := do
  match ← s.read file with
  | .ok bytes => return .ok bytes
  | .error .notFound => return .error (.notFound file)
  | .error f => return .error (.file f)

/-- The program text in a file. -/
def loadText (s : Storage m) (file : String) : m (Except CommandError String) := do
  match ← s.load file with
  | .error e => return .error e
  | .ok bytes =>
    match Utf8.decode bytes with
    | .ok cs => return .ok (String.ofList cs)
    | .error _ => return .error .notText

end Storage

namespace Command

variable {m : Type → Type} [Monad m]

/-- Writes the image of a program text, and says where to. -/
def buildFrom (s : Storage m) (file source : String) : m Response := do
  match Program.assemble source with
  | .error e => return .failure (.assembly e)
  | .ok p =>
    let path := imagePath file
    match ← s.write path (Image.encode p) with
    | .error f => return .failure (.file f)
    | .ok () => return { result := .ok (.wrote path p.size) }

/-- Carries out a command. -/
def perform (s : Storage m) : Command → m Response
  | run file config => do
    match ← s.loadText file with
    | .error e => return .failure e
    | .ok source => return .ofSource config source
  | build file => do
    match ← s.loadText file with
    | .error e => return .failure e
    | .ok source => buildFrom s file source
  | exec file config => do
    match ← s.load file with
    | .error e => return .failure e
    | .ok bytes => return .ofImage config bytes

/-- Carries out a command line. -/
def performArguments (s : Storage m) (arguments : List String) : m Response :=
  match parse arguments with
  | .error e => return .failure e
  | .ok command => perform s command

end Command

end TinyAsm

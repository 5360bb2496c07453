import TinyAsm.Image.Decode
import TinyAsm.Interpret
import TinyAsm.CommandLine.Storage

/-!
# Commands

The command line names a command and a file:

* `run` interprets a program text;
* `build` assembles a program text and writes the image of the program;
* `exec` runs the program of an image.

After the file, `run` and `exec` take flags, and `build` ignores what it finds.

`Command.parse` reads a command line, and `CommandError` says what can go wrong then or
later. A missing file name is reported before an unknown command, and flags are read
before the file is.
-/

namespace TinyAsm

/-- Why a command failed. -/
inductive CommandError where
  /-- An argument is missing. -/
  | usage
  | unknownArgument (argument : String)
  | invalidLimit (argument : String)
  /-- There is no file to read. -/
  | notFound (path : String)
  | file (f : FileFault)
  /-- A program text is not UTF-8. -/
  | notText
  | interpret (e : InterpretError)
  | assembly (e : AssemblyError)
  | image (e : Image.Error)
  | run (e : RunError)
deriving DecidableEq, Repr

/-- The text of an error. -/
def CommandError.message : CommandError → String
  | usage => "usage: asmvm <run|build|exec> <file> [--trace] [--limit N | --no-limit]"
  | unknownArgument argument => "unknown argument '" ++ argument ++ "'"
  | invalidLimit argument => "'" ++ argument ++ "' is not a valid step limit"
  | notFound path => path ++ " not found"
  | file f => "io::Error: " ++ f.message
  | notText => "io::Error: stream did not contain valid UTF-8"
  | interpret e => "InterpretError: " ++ e.message
  | assembly e => "CompilerError: " ++ e.message
  | image e => "FileIOError: " ++ e.message
  | run e => "RuntimeError: " ++ e.message

/-- What the command line asks for. -/
inductive Command where
  | run (file : String) (config : Config)
  | build (file : String)
  | exec (file : String) (config : Config)
deriving DecidableEq, Repr

/-- The configuration after the given flags. A later flag on the step limit replaces an
earlier one. -/
def Config.ofFlags (c : Config) : List String → Except CommandError Config
  | [] => .ok c
  | "--trace" :: flags => ofFlags { c with trace := true } flags
  | "--no-limit" :: flags => ofFlags { c with stepLimit := none } flags
  | "--limit" :: n :: flags =>
    -- What comes behind is taken as a number, also if it is spelled as a flag.
    match Decimal.count? n.toList with
    | some limit => ofFlags { c with stepLimit := some limit } flags
    | none => .error (.invalidLimit n)
  | ["--limit"] => .error .usage
  | argument :: _ => .error (.unknownArgument argument)

/-- The command of a command line. -/
def Command.parse : List String → Except CommandError Command
  | command :: file :: flags =>
    match command with
    | "run" => return .run file (← Config.ofFlags {} flags)
    | "build" => return .build file
    | "exec" => return .exec file (← Config.ofFlags {} flags)
    | _ => throw (.unknownArgument command)
  | _ => throw .usage

end TinyAsm

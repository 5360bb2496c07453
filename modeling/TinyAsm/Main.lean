import TinyAsm.CommandLine.Report

/-!
# The program

Carries out its command line on the files of the system, prints the report and exits with
its code.
-/

namespace TinyAsm

/-- The fault that the system has the given number for, with or without a minus sign. -/
def faultOfCode (code : UInt32) (details : String) : FileFault :=
  match code.toInt32.toInt.natAbs with
  | 13 => .permissionDenied
  | 20 => .notDirectory
  | 21 => .isDirectory
  | 36 => .nameTooLong
  | number => .system details number

/-- What the system reported, as a fault. -/
def faultOfError : IO.Error → FileFault
  | .noFileOrDirectory .. => .notFound
  | .alreadyExists _ code details | .otherError code details | .resourceBusy code details
  | .resourceVanished code details | .unsupportedOperation code details
  | .hardwareFault code details | .unsatisfiedConstraints code details
  | .illegalOperation code details | .protocolError code details
  | .timeExpired code details | .interrupted _ code details
  | .invalidArgument _ code details | .permissionDenied _ code details
  | .resourceExhausted _ code details | .inappropriateType _ code details
  | .noSuchThing _ code details => faultOfCode code details
  | .unexpectedEof => .system "end of file" 0
  | .userError details => .system details 0

/-- The files of the system. -/
def systemStorage : Storage IO where
  read path := do
    try
      return .ok (← IO.FS.readBinFile path).toList
    catch e =>
      return .error (faultOfError e)
  write path bytes := do
    try
      IO.FS.writeBinFile path ⟨bytes.toArray⟩
      return .ok ()
    catch e =>
      return .error (faultOfError e)

/-- Whether a variable of the environment is set and is not `0`. -/
def isSwitchedOn (name : String) : BaseIO Bool :=
  return (← IO.getEnv name).any (· ≠ "0")

/-- Whether messages are coloured: if that is forced, or else unless it is switched off or
the standard output is no terminal. -/
def isColoured : IO Bool := do
  if ← isSwitchedOn "CLICOLOR_FORCE" then return true
  else if (← IO.getEnv "NO_COLOR").isSome then return false
  else if (← IO.getEnv "CLICOLOR") = some "0" then return false
  else (← IO.getStdout).isTty

end TinyAsm

open TinyAsm in
/-- Runs one command. -/
def main (arguments : List String) : IO UInt32 := do
  let response ← Command.performArguments systemStorage arguments
  let report := response.report (← isColoured)
  IO.eprint report.messages
  IO.print report.output
  return report.exitCode.toUInt32

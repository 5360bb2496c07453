import TinyAsm.CommandLine.Perform

/-!
# What a command prints

A response is reported as an exit code and the texts of the two output streams. The
outcome of a program goes to the standard output, and everything else, the trace first,
to the other stream. The exit code is 0 for a halted program or a written image, 2 for a
program whose pointer left it, and 1 for an error.
-/

namespace TinyAsm

/-- An exit code, and what is printed. -/
structure Report where
  exitCode : UInt8
  output : String := ""
  messages : String := ""
deriving DecidableEq, Repr

namespace Report

/-- The terminal sequence that ends a style. -/
def reset : String := "\x1b[0m"

/-- A text in the style with the given terminal code, or plain. Where the text itself ends
the style, the style starts again. -/
def paint (coloured : Bool) (code text : String) : String :=
  let style := "\x1b[" ++ code ++ "m"
  if coloured then style ++ text.replace reset (reset ++ style) ++ reset else text

/-- The report on what a command came to. -/
def ofResult (coloured : Bool) : Except CommandError Completion → Report
  | .ok (.ran o) =>
    { exitCode := if o.output?.isSome then 0 else 2, output := o.text ++ "\n" }
  | .ok (.wrote path n) =>
    { exitCode := 0
      messages := paint coloured "32" "wrote" ++ " " ++ path ++ " (" ++ n.repr
        ++ " instructions)\n" }
  | .error e =>
    { exitCode := 1
      messages := paint coloured "1;31" "error:" ++ " " ++ e.message ++ "\n" }

/-- The printed trace, a line for each turn. -/
def traceText (coloured : Bool) (trace : List TraceEntry) : String :=
  String.join (trace.map fun e => paint coloured "2" e.text ++ "\n")

end Report

/-- The report on a response. -/
def Response.report (coloured : Bool) (r : Response) : Report :=
  let report := Report.ofResult coloured r.result
  { report with messages := Report.traceText coloured r.trace ++ report.messages }

end TinyAsm

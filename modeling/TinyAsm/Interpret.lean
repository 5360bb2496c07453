import TinyAsm.Machine.Run
import TinyAsm.Program.Assembly

/-!
# Interpreting a program text

A program text is interpreted by assembling it and running the program on a machine that
was just switched on.
-/

namespace TinyAsm

/-- Why a program text has no outcome. -/
inductive InterpretError where
  | assembly (e : AssemblyError)
  | run (e : RunError)
deriving DecidableEq, Repr

/-- The text of an error. -/
def InterpretError.message : InterpretError → String
  | assembly e => "compile error: " ++ e.message
  | run e => "runtime error: " ++ e.message

/-- The run of a program text. -/
def runSource (source : String) (c : Config) : Except AssemblyError Run := do
  let p ← Program.assemble source
  return Machine.run p c {}

/-- The outcome of a program text. -/
def interpret (source : String) (c : Config) : Except InterpretError Outcome :=
  match runSource source c with
  | .ok r => r.result.mapError .run
  | .error e => .error (.assembly e)

variable {source : String} {c : Config}

/-- A text that assembles is run on a machine that was just switched on. -/
theorem runSource_of_assemble_eq_ok {p : Program} (h : Program.assemble source = .ok p) :
    runSource source c = .ok (Machine.run p c {}) := by
  simp [runSource, h, bind, Except.bind, pure, Except.pure]

/-- A text that does not assemble is not run at all. -/
theorem runSource_of_assemble_eq_error {e : AssemblyError}
    (h : Program.assemble source = .error e) : runSource source c = .error e := by
  simp [runSource, h, bind, Except.bind]

end TinyAsm

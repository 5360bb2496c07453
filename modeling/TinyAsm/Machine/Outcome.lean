import TinyAsm.Machine.Basic

/-!
# How a run ends

A run ends with an outcome if the machine was halted or its pointer left the program. It
ends with an error if an instruction met a fault, or if the step limit was reached with
an instruction still to be executed.
-/

namespace TinyAsm

/-- Results can be compared if their errors and their values can. -/
instance decidableEqExcept {ε α : Type} [DecidableEq ε] [DecidableEq α] :
    DecidableEq (Except ε α)
  | .ok x, .ok y => decidable_of_iff (x = y) (by simp)
  | .error e, .error f => decidable_of_iff (e = f) (by simp)
  | .ok _, .error _ => .isFalse nofun
  | .error _, .ok _ => .isFalse nofun

/-- The proper ends of a run. -/
inductive Outcome where
  /-- The machine was halted with this output. -/
  | halted (output : String)
  /-- The pointer left the program. -/
  | runoff
deriving DecidableEq, Repr

namespace Outcome

/-- The output, which only a halted machine has. -/
def output? : Outcome → Option String
  | halted output => some output
  | runoff => none

/-- The text of an outcome. -/
def text : Outcome → String
  | halted output => output
  | runoff => "-1"

end Outcome

/-- Why a run was given up. -/
inductive RunError where
  /-- The machine had executed as many instructions as it may. Of a run without a limit, it
  says that the step counter is full and the program still goes on. -/
  | stepLimit (limit : Nat)
  /-- The instruction at the pointer cannot be executed. -/
  | fault (f : Fault)
deriving DecidableEq, Repr

/-- The text of an error. -/
def RunError.message : RunError → String
  | stepLimit limit => "step limit of " ++ limit.repr ++ " instructions exceeded"
  | fault f => f.message

end TinyAsm

/-!
# Runs

The only thing that a run can change, beyond the locals and operands of its own calls, is the state
of the host, so a run is a function of that state.  A run that traps keeps what the host did before.
-/

namespace WasmForge

/-- Why a run ends without a result. -/
inductive Trap where
  /-- `unreachable` was executed. -/
  | unreachable
  /-- Too many calls inside each other. -/
  | callDepth
  /-- Too many cells in use by calls inside each other. -/
  | cellsExhausted
  /-- Too many turns of a loop. -/
  | loopTurns
  /-- The arguments do not fit the function. -/
  | badArguments
  /-- The code is not valid. -/
  | illTyped
  /-- A host function was called with a value that hosts do not know. -/
  | unsupportedArgument (function : String)
  /-- A host function without a result gave one. -/
  | unexpectedAnswer (function : String)
  /-- A host function with a result gave none. -/
  | missingAnswer (function : String)
  deriving DecidableEq

/-- The wording of a trap that has to do with the host. -/
def Trap.hostMessage? : Trap → Option String
  | unsupportedArgument f => some s!"unsupported argument type for `{f}`"
  | unexpectedAnswer f => some s!"host function `{f}` returned a value but has no result"
  | missingAnswer f => some s!"host function `{f}` returned nothing but expects a result"
  | _ => none

/-- A run over host states `σ`. -/
abbrev Run (σ α : Type) : Type := ExceptT Trap (StateM σ) α

end WasmForge

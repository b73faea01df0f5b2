import WasmForge.Options.Basic
import WasmForge.Program.Numbering

/-!
# Why no module was emitted

Emission fails for one of four reasons: the options, the numbering of functions, a body that cannot
be lowered, or a result that is no valid module.
-/

namespace WasmForge

/-- What can be wrong with a body.  `function` is the function whose body it is. -/
inductive LoweringError where
  /-- The body of an import is the host's. -/
  | importHasNoBody (function : String)
  /-- A local of `owner` is used in another function. -/
  | foreignLocal (place : Place) (owner function : String)
  /-- A local that the function does not have. -/
  | undeclaredLocal (place : Place) (function : String)
  /-- A branch further out than the function body. -/
  | labelTooDeep (label depth : Nat) (function : String)
  /-- An end without an open construct. -/
  | nothingToClose (function : String)
  /-- A body that ends inside constructs. -/
  | leftOpen (depth : Nat) (function : String)
  /-- A local without a slot. -/
  | noSlot (place : Place)
  /-- Arithmetic on operands of two types. -/
  | operandsDiffer (left : ValueType) (op : Arith) (right : ValueType) (function : String)
  /-- Arithmetic on no values. -/
  | voidOperands (function : String)
  /-- A call with the wrong number of arguments. -/
  | argumentCount (callee : String) (expected given : Nat) (function : String)
  /-- A call with an argument of the wrong type. -/
  | argumentType (param callee : String) (expected given : ValueType) (function : String)
  /-- An assignment of a value of the wrong type. -/
  | assignedType (given target : ValueType) (place : Place) (function : String)
  /-- An increment of a local that holds no value. -/
  | voidIncrement (function : String)
  /-- A return of the wrong type. -/
  | returnType (function : String) (expected given : ValueType)
  /-- A function without a body. -/
  | noBody (function : String)
  /-- A body for an import. -/
  | bodyOfImport (function : String)
  /-- A second body for a function. -/
  | secondBody (function : String)
  deriving DecidableEq

/-- The wording of an error. -/
def LoweringError.message : LoweringError → String
  | importHasNoBody f => s!"imported function `{f}` has no body to assemble"
  | foreignLocal p owner f => s!"local {p.shown} of `{owner}` used in `{f}`"
  | undeclaredLocal p f => s!"local {p.shown} is not declared in `{f}`"
  | labelTooDeep label depth f =>
    s!"branch label {label} exceeds nesting depth {depth} in `{f}`"
  | nothingToClose f => s!"`end` without an open block in `{f}`"
  | leftOpen depth f => s!"{depth} structured construct(s) left open in `{f}`"
  | noSlot p => s!"local {p.shown} has no slot"
  | operandsDiffer l op r f =>
    s!"operand types differ in `{l.shown} {op.sign} {r.shown}` in `{f}`"
  | voidOperands f => s!"arithmetic on void operands in `{f}`"
  | argumentCount callee expected given f =>
    s!"`{callee}` takes {expected} argument(s), {given} given in `{f}`"
  | argumentType param callee expected given f =>
    s!"argument `{param}` of `{callee}` expects {expected.shown}, got {given.shown} in `{f}`"
  | assignedType given target p f =>
    s!"cannot assign {given.shown} to {target.shown} local {p.shown} in `{f}`"
  | voidIncrement f => s!"cannot increment void local in `{f}`"
  | returnType f expected given => s!"`{f}` returns {expected.shown}, not {given.shown}"
  | noBody f => s!"function `{f}` has no body"
  | bodyOfImport f => s!"imported function `{f}` cannot have a body"
  | secondBody f => s!"body of `{f}` added twice"

/-- Why no module was emitted. -/
inductive EmitError where
  /-- The options cannot be met. -/
  | configuration (cause : OptionsError)
  /-- The functions are not numbered as they have to be. -/
  | resolution (cause : NumberingError)
  /-- A body cannot be lowered. -/
  | lowering (cause : LoweringError)
  /-- The result is no valid module. -/
  | invalidModule
  deriving DecidableEq

/-- The wording of an error. -/
def EmitError.message : EmitError → String
  | configuration e => s!"configuration error: {e.message}"
  | resolution e => s!"resolution error: {e.message}"
  | lowering e => s!"lowering error: {e.message}"
  | invalidModule => "WASM validation failed"

end WasmForge

import WasmForge.ModuleMap.Basic

/-!
# From a program to a module

The whole way: check the options, number the functions, lower every body, put the module together.
-/

namespace WasmForge

namespace Program

/-- Lowers the body of a function and adds it to a draft; imports have none. -/
def addLowered (p : Program) (draft : ModuleDraft) (f : FuncRef) : Except EmitError ModuleDraft :=
  match p.get? f with
  | none => .ok draft
  | some d =>
    if d.isImport then .ok draft
    else do draft.addBody f (← p.lower f d draft.numbering)

/-- Emits the program as a module, together with the map of the module. -/
def compileWithMap (p : Program) (o : EmitOptions) : Except EmitError (Bytes × ModuleMap) := do
  o.validate.mapError .configuration
  let numbering ← p.number.mapError .resolution
  let draft ← ModuleDraft.start p numbering o
  let draft ← numbering.refs.foldlM p.addLowered draft
  let bytes ← draft.finish
  return (bytes, .ofProgram p numbering o.memory)

/-- Emits the program as a module. -/
def compile (p : Program) (o : EmitOptions) : Except EmitError Bytes :=
  (p.compileWithMap o).map (·.1)

end Program

end WasmForge

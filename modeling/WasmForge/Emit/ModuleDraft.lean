import WasmForge.Assembly.Assembler

/-!
# Putting a module together

A draft has a program, a numbering of its functions and the options, and collects one body for each
function that the program defines.  Every function has a type entry of its own, so that the type
index of a function is its function index.
-/

namespace WasmForge

/-- The module that imports come from. -/
def hostModule : String := "env"

/-- The field that the memory is imported as. -/
def memoryField : String := "memory"

/-- A module that is being put together. -/
structure ModuleDraft where
  /-- The program. -/
  program : Program
  /-- The numbering of its functions. -/
  numbering : Numbering
  /-- The options. -/
  options : EmitOptions
  /-- The bodies so far, by function index. -/
  bodies : List (Nat × Bytes)

namespace ModuleDraft

/-! ## Starting -/

/-- The declaration that a handle names. -/
def declaration (p : Program) (f : FuncRef) : Except EmitError Declaration :=
  match p.get? f with
  | some d => .ok d
  | none => .error (.resolution (.notRegistered f.index))

/-- Checks that no import has an index above a defined function.  `index` is the index of the first
handle, and `definedBefore` says whether a defined function came before it. -/
def checkOrder (p : Program) (index : Nat) (definedBefore : Bool) :
    List FuncRef → Except EmitError Unit
  | [] => .ok ()
  | f :: rest => do
    let d ← declaration p f
    if d.isImport then
      if definedBefore then .error (.resolution (.importAfterDefined d.name index))
      else checkOrder p (index + 1) false rest
    else checkOrder p (index + 1) true rest

/-- Checks that no import has the name of the memory, if there is one. -/
def checkMemoryName (p : Program) (o : EmitOptions) : Except EmitError Unit :=
  if o.memory.isSome && p.hasImport memoryField then
    .error (.configuration (.memoryNameTaken memoryField))
  else .ok ()

/-- A draft without bodies.  The numbering has to be one of this program, as it is now, with all
imports first. -/
def start (p : Program) (n : Numbering) (o : EmitOptions) : Except EmitError ModuleDraft :=
  if n.program ≠ p.id then .error (.resolution (.otherProgram n.program p.id))
  else if n.size ≠ p.size then .error (.resolution (.otherSize n.size p.size))
  else do
    checkMemoryName p o
    checkOrder p 0 false n.refs
    return ⟨p, n, o, []⟩

/-! ## Adding bodies -/

/-- Adds the body of a function that the program defines. -/
def addBody (m : ModuleDraft) (f : FuncRef) (body : Bytes) : Except EmitError ModuleDraft := do
  let index ← (m.numbering.indexOf f).mapError .resolution
  let d ← declaration m.program f
  if d.isImport then .error (.lowering (.bodyOfImport d.name))
  else if (m.bodies.lookup index).isSome then .error (.lowering (.secondBody d.name))
  else .ok { m with bodies := (index, body) :: m.bodies }

/-! ## Finishing -/

/-- Declarations with their function indices. -/
def indexed (m : ModuleDraft) : Except EmitError (List (Nat × Declaration)) := do
  let decls ← m.numbering.refs.mapM (declaration m.program)
  return (List.range decls.length).zip decls

/-- The imports of a module: its imported functions, then its memory. -/
def imports (memory : Option Limits) (decls : List (Nat × Declaration)) : List Import :=
  decls.filterMap (fun (i, d) =>
      if d.isImport then some ⟨hostModule, d.name, .func i⟩ else none)
    ++ memory.toList.map fun limits => ⟨hostModule, memoryField, .memory (.narrow limits)⟩

/-- The exports of a module. -/
def exports (decls : List (Nat × Declaration)) : List Export :=
  decls.filterMap fun (i, d) => if d.isExport then some ⟨d.name, .func, i⟩ else none

/-- The functions that a module defines. -/
def defined (decls : List (Nat × Declaration)) : List (Nat × Declaration) :=
  decls.filter (!·.2.isImport)

/-- The body of a function that the module defines. -/
def bodyOf (m : ModuleDraft) (entry : Nat × Declaration) : Except EmitError Bytes :=
  match m.bodies.lookup entry.1 with
  | some body => .ok body
  | none => .error (.lowering (.noBody entry.2.name))

/-- The module that the draft describes. -/
def toModule (m : ModuleDraft) : Except EmitError (Module Bytes) := do
  let decls ← m.indexed
  let code ← (defined decls).mapM m.bodyOf
  return {
    types := decls.map (·.2.funcType)
    imports := imports m.options.memory decls
    functions := (defined decls).map (·.1)
    tables := []
    memories := []
    exports := exports decls
    start := none
    code := code }

/-- The bytes of the module, which have to pass a validator. -/
def finishWith (valid : Bytes → Bool) (m : ModuleDraft) : Except EmitError Bytes := do
  let bytes := (← m.toModule).encode
  if valid bytes then .ok bytes else .error .invalidModule

/-- The bytes of the module, if they can be read.  The reader knows the instructions that programs
are lowered to; of bodies with other instructions a full validator accepts more. -/
def finish (m : ModuleDraft) : Except EmitError Bytes :=
  m.finishWith fun bytes => (Module.ofBytes? bytes).isSome

end ModuleDraft

end WasmForge

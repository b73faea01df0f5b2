import WasmForge.Host.Functions
import WasmForge.Machine.CellPlan
import WasmForge.Machine.Exec
import WasmForge.Module.Validity

/-!
# Instances

An instance is a module whose function imports are bound to host functions by name.  Its functions
call each other, so a call is executed by recursion on the number of calls that may still be made
inside each other.  The calls inside each other also share a bounded number of cells.

* `Module.prepare`: makes the functions of a module ready to run.
* `Instance.ofBytes`: reads a module, binds its imports and runs its start function.
* `Instance.call`: calls an export.
-/

namespace WasmForge

variable [SingleArith]

/-! ## Functions of an instance -/

/-- A function of a module, ready to run. -/
structure DefinedFunction where
  /-- Its type. -/
  type : FuncType
  /-- The types of its declared locals. -/
  locals : List ValType
  /-- Its code. -/
  body : List Node
  /-- The number of cells that a call of it takes. -/
  cells : Nat

/-- Makes a function of type `type` ready to run, in a module with the given function types and
functions. -/
def DefinedFunction.ofCode? (types functions : List FuncType) (type : FuncType) (c : Code) :
    Option DefinedFunction := do
  let ctx : CellPlan.Context := ⟨types, (functions[·]?), type.results.length⟩
  let cells ← CellPlan.cells? ctx (c.localCount type.params) c.body
  let body ← Node.ofBody? types c.body
  some ⟨type, c.localTypes [], body, cells⟩

/-- Makes the functions of a module ready to run. -/
def Module.prepare (m : Module Code) : Option (List DefinedFunction) := do
  let functions ← m.functionTypeIndices.mapM (m.types[·]?)
  ((functions.drop m.importedFunctionCount).zip m.code).mapM fun (type, c) =>
    DefinedFunction.ofCode? m.types functions type c

/-- A function of an instance. -/
inductive LinkedFunction (σ : Type) where
  /-- A host function, with the name it is imported by. -/
  | host (name : String) (type : FuncType) (run : HostFunction σ)
  /-- A function of the module. -/
  | defined (f : DefinedFunction)

namespace LinkedFunction

variable {σ : Type}

/-- The type of a function. -/
def type : LinkedFunction σ → FuncType
  | host _ type _ => type
  | defined f => f.type

/-- The number of cells that a call takes.  A host function finds its arguments in the cells that
its results are put into. -/
def cells : LinkedFunction σ → Nat
  | host _ type _ => max type.params.length type.results.length
  | defined f => f.cells

end LinkedFunction

/-- Takes the answer of a host function for the results of its type.  The answer stands for the
first result, whatever its type; further results are zero. -/
def hostResults (name : String) (results : List ValType) (answer : Option Scalar) :
    Except Trap (List Value) :=
  match answer, results with
  | none, [] => .ok []
  | some s, t :: rest => .ok (.reinterpret s t :: rest.map .zero)
  | some _, [] => .error (.unexpectedAnswer name)
  | none, _ :: _ => .error (.missingAnswer name)

/-- Calls a host function. -/
def callHost {σ : Type} (name : String) (type : FuncType) (f : HostFunction σ)
    (args : List Value) : Run σ (List Value) := do
  match args.mapM Value.scalar? with
  | none => throw (.unsupportedArgument name)
  | some scalars =>
    let answer ← (f scalars : StateM σ (Option Scalar))
    match hostResults name type.results answer with
    | .ok results => return results
    | .error trap => throw trap

/-- Calls a function of a function space, with at most `depth` calls inside each other that take at
most `cells` cells together. -/
def callFunction {σ : Type} (functions : List (LinkedFunction σ)) :
    (depth cells : Nat) → LinkedFunction σ → List Value → Run σ (List Value)
  | _, cells, .host name type f, args =>
    if (LinkedFunction.host name type f).cells ≤ cells then callHost name type f args
    else throw .cellsExhausted
  | 0, _, .defined _, _ => throw .callDepth
  | depth + 1, cells, .defined f, args =>
    if f.cells ≤ cells then
      let callee := fun i => (functions[i]?).map fun g =>
        { arity := g.type.params.length, enter := callFunction functions depth (cells - f.cells) g }
      Machine.runBody callee f.type.results.length f.body (args ++ f.locals.map .zero)
    else throw .cellsExhausted

/-! ## Instances -/

/-- An instantiated module. -/
structure Instance (σ : Type) where
  /-- All functions, by index. -/
  functions : List (LinkedFunction σ)
  /-- Exported functions by name. -/
  exports : List (String × Nat)
  /-- The number of pages of the memory, if there is one.  None of the instructions that are read
  and executed here reaches it, and the functions of a host do not either, so it stays as it is. -/
  memory : Option Nat

/-- Why there is no instance. -/
inductive InstanceError where
  /-- A function import that the host does not provide. -/
  | missingImport (name : String)
  /-- An import that is neither a function nor a memory. -/
  | unsupportedImport (source name : String)
  /-- No valid module. -/
  | invalidModule
  /-- A function that needs too many cells. -/
  | oversizedFunction
  /-- A memory that is too large to exist. -/
  | oversizedMemory (source name : String)
  /-- Two imports of the same field of the same module. -/
  | duplicateImport (source name : String)
  /-- The start function trapped. -/
  | startTrapped (trap : Trap)
  deriving DecidableEq

/-- The wording of an error that does not depend on how a module is read. -/
def InstanceError.message? : InstanceError → Option String
  | missingImport name => some s!"no host function provided for import `{name}`"
  | startTrapped trap => trap.hostMessage?.map ("instantiation failed: " ++ ·)
  | _ => none

/-- Why a call gave no result. -/
inductive CallError where
  /-- No function is exported by that name. -/
  | missingExport (name : String)
  /-- The call of the named export trapped. -/
  | trapped (name : String) (trap : Trap)
  deriving DecidableEq

/-- The wording of an error that does not depend on how a module is executed. -/
def CallError.message? : CallError → Option String
  | missingExport name => some s!"module has no export `{name}`"
  | trapped name trap => trap.hostMessage?.map (s!"trap in `{name}`: " ++ ·)

namespace Instance

variable {σ : Type}

/-- The greatest number of calls inside each other. -/
def maxCallDepth : Nat := 1024

/-- The greatest number of cells that calls inside each other take together. -/
def maxCells : Nat := 131072

/-- The size of a page in bytes. -/
def pageSize : Nat := 65536

/-- A bound on the size of a memory in bytes. -/
def memorySizeBound : Nat := 0x10_0000_0000

/-- Does the instance have a memory? -/
def hasMemory (i : Instance σ) : Bool := i.memory.isSome

/-- The size of the memory in bytes. -/
def memorySize (i : Instance σ) : Option Nat := i.memory.map (· * pageSize)

/-! ## Binding imports -/

/-- What has been bound: host functions, and the pages of the last memory. -/
structure Bound (σ : Type) where
  /-- The imports bound so far. -/
  keys : List (String × String)
  /-- The function imports bound so far, last first. -/
  functions : List (LinkedFunction σ)
  /-- Pages of the last memory. -/
  memory : Option Nat

/-- Binds an import. -/
def bindImport (host : Host σ) (types : List FuncType) (b : Bound σ) (i : Import) :
    Except InstanceError (Bound σ) :=
  let key := (i.source, i.name)
  match i.kind with
  | .func t =>
    match host.find? i.name, types[t]? with
    | none, _ => .error (.missingImport i.name)
    | some _, none => .error .invalidModule
    | some f, some type =>
      if b.keys.contains key then .error (.duplicateImport i.source i.name)
      else .ok ⟨key :: b.keys, .host i.name type f :: b.functions, b.memory⟩
  | .memory extent =>
    if memorySizeBound ≤ extent.minimum * pageSize then .error (.oversizedMemory i.source i.name)
    else if b.keys.contains key then .error (.duplicateImport i.source i.name)
    else .ok ⟨key :: b.keys, b.functions, some extent.minimum⟩
  | _ => .error (.unsupportedImport i.source i.name)

/-- Links a valid module with a host. -/
def link (m : Module Code) (host : Host σ) : Except InstanceError (Instance σ) :=
  match m.prepare with
  | none => .error .oversizedFunction
  | some defined => do
    let bound ← m.imports.foldlM (bindImport host m.types) ⟨[], [], none⟩
    return {
      functions := bound.functions.reverse ++ defined.map .defined
      exports := m.exports.filterMap fun e =>
        if e.kind == .func then some (e.name, e.index) else none
      memory := bound.memory }

/-! ## Calls -/

/-- Calls the function with an index, which takes arguments of exactly its parameter types.  The
results have cells of their own. -/
def invoke (i : Instance σ) (index : Nat) (args : List Value) : Run σ (List Value) :=
  match i.functions[index]? with
  | none => throw .illTyped
  | some f =>
    if args.map (·.type) = f.type.params then
      callFunction i.functions maxCallDepth (maxCells - f.type.results.length) f args
    else throw .badArguments

/-- Calls an export.  The answer is its first result, if it has one that the host knows. -/
def call (i : Instance σ) (name : String) (args : List Scalar) :
    StateM σ (Except CallError (Option Scalar)) := do
  match i.exports.lookup name with
  | none => return .error (.missingExport name)
  | some index =>
    match ← (i.invoke index (args.map .ofScalar)).run with
    | .ok results => return .ok (results.head?.bind Value.scalar?)
    | .error trap => return .error (.trapped name trap)

/-! ## Instantiation -/

/-- Runs the start function of a module, if it has one. -/
def runStart (i : Instance σ) (start : Option Nat) : StateM σ (Except InstanceError (Instance σ)) :=
  match start with
  | none => return .ok i
  | some index => do
    match ← (i.invoke index []).run with
    | .ok _ => return .ok i
    | .error trap => return .error (.startTrapped trap)

/-- Reads a module, binds its imports and runs its start function. -/
def ofBytes (bs : Bytes) (host : Host σ) : StateM σ (Except InstanceError (Instance σ)) :=
  match Module.ofBytes? bs with
  | none => return .error .invalidModule
  | some m =>
    match link m host with
    | .error e => return .error e
    | .ok i => i.runStart m.start

end Instance

end WasmForge

import WasmForge.Module.Decode

/-!
# Valid modules

A body is checked by running its flat instruction stream through a typing machine.  The state is
the list of open constructs, innermost first; each has its own operand types.  After a branch, a
return or `unreachable` the rest of a construct cannot be reached, and missing operands are then
taken to have whatever type is needed.  The `close` that ends the function leaves no open construct,
so a body is well typed exactly when its last item leads to the empty state.

* `Typing.step`: what one stream item does to the state.
* `Code.check`: is a body well typed at its function's type?
* `Module.isValid`: do all parts of a module fit together?
* `Module.ofBytes?`: reads a module and checks it.
-/

namespace WasmForge

/-! ## Size limits -/

/-- The greatest number of parameters of a function. -/
def maxParams : Nat := 1000

/-- The greatest number of results of a function. -/
def maxResults : Nat := 1000

/-- The greatest number of locals of a function, its parameters included. -/
def maxLocals : Nat := 50000

/-- The greatest number of memories, and of tables, of a module. -/
def maxStores : Nat := 100

/-- A bound on the size of the types of all imports and exports together. -/
def typeSizeBound : Nat := 1000000

/-- The greatest number of pages of a memory. -/
def maxPages : UInt32 := 65536

/-- The greatest number of pages of a memory that is indexed by 64-bit numbers. -/
def maxWidePages : UInt64 := 0x1_0000_0000_0000

/-- Does the maximum, if there is one, leave room for the minimum? -/
def Limits.isOrdered (l : Limits) : Bool := l.maximum.all (l.minimum ≤ ·)

/-- Are these limits of a memory that can exist? -/
def Limits.fitMemory (l : Limits) : Bool :=
  l.isOrdered && l.minimum ≤ maxPages && l.maximum.all (· ≤ maxPages)

namespace Extent

/-- Does the maximum, if there is one, leave room for the minimum? -/
def isOrdered : Extent → Bool
  | narrow l => l.isOrdered
  | wide l => l.maximum.all (l.minimum ≤ ·)

/-- Are these limits of a memory that can exist? -/
def fitMemory : Extent → Bool
  | narrow l => l.fitMemory
  | wide l =>
    l.maximum.all (l.minimum ≤ ·) && l.minimum ≤ maxWidePages
      && l.maximum.all (· ≤ maxWidePages)

end Extent

/-- The size of a function type. -/
def FuncType.size (t : FuncType) : Nat := t.params.length + t.results.length + 2

/-! ## The typing machine -/

namespace Typing

/-- An open construct. -/
structure Frame where
  /-- The types that a branch to the construct carries. -/
  label : List ValType
  /-- The types that the construct leaves when it ends. -/
  results : List ValType
  /-- The operand types pushed since the construct was opened, last pushed first. -/
  operands : List ValType
  /-- Is the rest of the construct out of reach? -/
  unreachable : Bool
  deriving DecidableEq

/-- What a body can refer to, whatever names it uses for locals and functions. -/
structure Context (L F : Type) where
  /-- The types of locals. -/
  localType? : L → Option ValType
  /-- The types of functions. -/
  funcType? : F → Option FuncType
  /-- The function types that constructs can name. -/
  types : List FuncType
  /-- Result types of the function whose body it is. -/
  results : List ValType

namespace Frame

/-- A construct that was just opened, with operands of the types `params`. -/
def enter (label params results : List ValType) : Frame := ⟨label, results, params.reverse, false⟩

/-- Pushes an operand. -/
def push (f : Frame) (t : ValType) : Frame := { f with operands := t :: f.operands }

/-- Pushes operands, first to last. -/
def pushAll (f : Frame) (ts : List ValType) : Frame :=
  { f with operands := ts.reverse ++ f.operands }

/-- Pops an operand of type `t`. -/
def pop (f : Frame) (t : ValType) : Option Frame :=
  match f.operands with
  | [] => if f.unreachable then some f else none
  | top :: rest => if top = t then some { f with operands := rest } else none

/-- Pops an operand of any type. -/
def popAny (f : Frame) : Option Frame :=
  match f.operands with
  | [] => if f.unreachable then some f else none
  | _ :: rest => some { f with operands := rest }

/-- Pops operands of types `ts`, which were pushed first to last. -/
def popAll (f : Frame) (ts : List ValType) : Option Frame := ts.reverse.foldlM pop f

/-- Makes the rest of the construct out of reach. -/
def leave (f : Frame) : Frame := { f with operands := [], unreachable := true }

end Frame

variable {L F : Type}

/-- What an instruction does to the innermost construct `f`, given all open constructs. -/
def stepOp (ctx : Context L F) (frames : List Frame) (f : Frame) : Op L F → Option Frame
  | .unreachable => some f.leave
  | .nop => some f
  | .br label => do
    let target ← frames[label]?
    return (← f.popAll target.label).leave
  | .brIf label => do
    let target ← frames[label]?
    let f ← f.pop .i32
    return (← f.popAll target.label).pushAll target.label
  | .ret => do return (← f.popAll ctx.results).leave
  | .call i => do
    let type ← ctx.funcType? i
    return (← f.popAll type.params).pushAll type.results
  | .drop => f.popAny
  | .localGet i => do return f.push (← ctx.localType? i)
  | .localSet i => do f.pop (← ctx.localType? i)
  | .i32Const _ => some (f.push .i32)
  | .i64Const _ => some (f.push .i64)
  | .f32Const _ => some (f.push .f32)
  | .f64Const _ => some (f.push .f64)
  | .i32Arith _ => do return (← f.popAll [.i32, .i32]).push .i32
  | .f32Arith _ => do return (← f.popAll [.f32, .f32]).push .f32

/-- What a stream item does to the open constructs. -/
def step (ctx : Context L F) : List Frame → Instr L F → Option (List Frame)
  | [], _ => none
  | f :: outer, .op o => do return (← stepOp ctx (f :: outer) f o) :: outer
  | f :: outer, .block type => do
    let sig ← type.signature? ctx.types
    return .enter sig.results sig.params sig.results :: (← f.popAll sig.params) :: outer
  | f :: outer, .loop type => do
    let sig ← type.signature? ctx.types
    return .enter sig.params sig.params sig.results :: (← f.popAll sig.params) :: outer
  | f :: outer, .close => do
    let ended ← f.popAll f.results
    if ended.operands.isEmpty then
      match outer with
      | [] => some []
      | g :: rest => some (g.pushAll f.results :: rest)
    else none

/-- What a stretch of the stream does to the open constructs. -/
def steps (ctx : Context L F) (frames : List Frame) (code : List (Instr L F)) :
    Option (List Frame) :=
  code.foldlM (step ctx) frames

@[simp] theorem steps_nil (ctx : Context L F) (frames : List Frame) :
    steps ctx frames [] = some frames := rfl

/-- A stretch after another continues where the first one ended. -/
theorem steps_append (ctx : Context L F) (frames : List Frame) (c d : List (Instr L F)) :
    steps ctx frames (c ++ d) = (steps ctx frames c).bind (steps ctx · d) := by
  simp [steps, List.foldlM_append, Option.bind_eq_bind]

end Typing

/-- Types of all locals of a function: its parameters, then the groups of its body. -/
def Code.localTypes (c : Code) (params : List ValType) : List ValType :=
  params ++ c.locals.flatMap fun (count, t) => List.replicate count t

/-- The number of locals of a function, its parameters included. -/
def Code.localCount (c : Code) (params : List ValType) : Nat :=
  params.length + (c.locals.map (·.1)).foldl (· + ·) 0

/-- Is the body well typed for a function of type `type`, in a module with the given function types
and functions? -/
def Code.check (types functions : List FuncType) (type : FuncType) (c : Code) : Bool :=
  if c.localCount type.params ≤ maxLocals then
    let locals := (c.localTypes type.params).toArray
    let ctx : Typing.Context Nat Nat := ⟨(locals[·]?), (functions[·]?), types, type.results⟩
    Typing.steps ctx [.enter type.results [] type.results] c.body == some []
  else false

/-! ## Modules -/

/-- Is the import well formed in a module with `typeCount` types? -/
def ImportKind.isValid (typeCount : Nat) : ImportKind → Bool
  | .func t => t < typeCount
  | .table t => t.extent.isOrdered
  | .memory e => e.fitMemory
  | .global _ _ => true

namespace Module

variable {β : Type}

/-- The number of items in an index space. -/
def count (m : Module β) : ExportKind → Nat
  | .func => m.functionTypeIndices.length
  | .table => (m.imports.countP fun i => match i.kind with
    | .table _ => true
    | _ => false) + m.tables.length
  | .memory => (m.imports.countP fun i => match i.kind with
    | .memory _ => true
    | _ => false) + m.memories.length
  | .global => m.imports.countP fun i => match i.kind with
    | .global _ _ => true
    | _ => false

/-- The size of the types of all imports and exports together, in a module whose functions have the
given types.  What is not a function counts as one. -/
def typeSize (m : Module β) (functions : List FuncType) : Nat :=
  let ofFunction := fun (i : Nat) => (functions[i]?).elim 1 FuncType.size
  let ofImport := fun (i : Import) => match i.kind with
    | .func t => (m.types[t]?).elim 1 FuncType.size
    | _ => 1
  let ofExport := fun (e : Export) => match e.kind with
    | .func => ofFunction e.index
    | _ => 1
  1 + (m.imports.map ofImport).foldl (· + ·) 0 + (m.exports.map ofExport).foldl (· + ·) 0

/-- Are the names pairwise distinct? -/
def distinctNames : List String → Bool
  | [] => true
  | n :: rest => !rest.contains n && distinctNames rest

/-- Do all bodies fit the types of their functions? -/
def checkCode (types functions : List FuncType) : List FuncType → List Code → Bool
  | [], [] => true
  | t :: rest, c :: code => c.check types functions t && checkCode types functions rest code
  | _, _ => false

/-- Do all parts of the module fit together? -/
def isValid (m : Module Code) : Bool :=
  m.types.all (fun t => t.params.length ≤ maxParams && t.results.length ≤ maxResults)
    && m.imports.all (·.kind.isValid m.types.length)
    && m.tables.all (·.extent.isOrdered)
    && m.memories.all (·.fitMemory)
    && m.count .table ≤ maxStores
    && m.count .memory ≤ maxStores
    && m.exports.all (fun e => e.index < m.count e.kind)
    && distinctNames (m.exports.map (·.name))
    && match m.functionTypeIndices.mapM (m.types[·]?) with
      | none => false
      | some functions =>
        (match m.start with
          | none => true
          | some f => functions[f]? == some ⟨[], []⟩)
          && m.typeSize functions < typeSizeBound
          && checkCode m.types functions (functions.drop m.importedFunctionCount) m.code

/-- Reads a module and checks it. -/
def ofBytes? (bs : Bytes) : Option (Module Code) :=
  match decode bs with
  | some m => if m.isValid then some m else none
  | none => none

end Module

end WasmForge

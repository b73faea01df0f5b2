import WasmForge.Numeric.Scalar

/-!
# Modules

The parts of a WebAssembly module that this library writes, reads, checks and runs.  Types,
imports, function declarations, tables, memories, exports and function bodies are listed in the
order of their indices.  What a function body is depends on the stage: raw bytes for the writer,
decoded code for the checker and the machine, so `Module` takes it as a parameter.

Instructions come in two shapes.  `Op` is an instruction that does its work in one step; `Instr` is
an item of the flat stream in which `block` and `loop` open a construct and `close` ends the
innermost one.  Both are parametric in how locals and functions are named: handles while a body is
assembled, indices in a module.
-/

namespace WasmForge

/-! ## Types -/

/-- What a reference can point to. -/
inductive RefKind where
  /-- A function. -/
  | func
  /-- Something of the host's. -/
  | host
  deriving DecidableEq, Inhabited

/-- The type of a value at run time. -/
inductive ValType where
  /-- 32-bit integers. -/
  | i32
  /-- 64-bit integers. -/
  | i64
  /-- Single-precision numbers. -/
  | f32
  /-- Double-precision numbers. -/
  | f64
  /-- References. -/
  | reference (kind : RefKind)
  deriving DecidableEq, Inhabited

/-- The type of a function. -/
structure FuncType where
  /-- Argument types, first to last. -/
  params : List ValType
  /-- Result types, first to last. -/
  results : List ValType
  deriving DecidableEq, Inhabited

/-- Size limits, in pages for a memory and in entries for a table. -/
structure Limits where
  /-- The size at the start. -/
  minimum : UInt32
  /-- The size it may grow to, if there is a bound. -/
  maximum : Option UInt32
  deriving DecidableEq, Inhabited

/-- Size limits of a memory or a table that is indexed by 64-bit numbers. -/
structure WideLimits where
  /-- The size at the start. -/
  minimum : UInt64
  /-- The size it may grow to, if there is a bound. -/
  maximum : Option UInt64
  deriving DecidableEq, Inhabited

/-- The limits of a memory or a table, by the width of the numbers that index it. -/
inductive Extent where
  /-- Indexed by 32-bit numbers. -/
  | narrow (limits : Limits)
  /-- Indexed by 64-bit numbers. -/
  | wide (limits : WideLimits)
  deriving DecidableEq, Inhabited

/-- The size at the start. -/
def Extent.minimum : Extent → Nat
  | narrow limits => limits.minimum.toNat
  | wide limits => limits.minimum.toNat

/-- The type of a table. -/
structure TableType where
  /-- What its entries point to. -/
  element : RefKind
  /-- Its limits. -/
  extent : Extent
  deriving DecidableEq, Inhabited

/-- The type of a construct. -/
inductive BlockType where
  /-- No operands, and at most one result. -/
  | result (type : Option ValType)
  /-- The operands and results of the function type with this index. -/
  | indexed (typeIndex : Nat)
  deriving DecidableEq, Inhabited

/-- Operands and results of a construct, in a module with the given function types. -/
def BlockType.signature? (types : List FuncType) : BlockType → Option FuncType
  | result type => some ⟨[], type.toList⟩
  | indexed i => types[i]?

/-! ## Instructions -/

/-- An instruction that does its work in one step. -/
inductive Op (L F : Type) where
  /-- Traps. -/
  | unreachable
  /-- Does nothing. -/
  | nop
  /-- Leaves the construct `label` levels out. -/
  | br (label : Nat)
  /-- Leaves the construct `label` levels out if the operand is not zero. -/
  | brIf (label : Nat)
  /-- Leaves the function. -/
  | ret
  /-- Calls a function. -/
  | call (function : F)
  /-- Discards the operand. -/
  | drop
  /-- Pushes a local. -/
  | localGet (place : L)
  /-- Pops into a local. -/
  | localSet (place : L)
  /-- Pushes an integer. -/
  | i32Const (value : Int32)
  /-- Pushes a 64-bit integer. -/
  | i64Const (value : Int64)
  /-- Pushes a single-precision number. -/
  | f32Const (value : Single)
  /-- Pushes a double-precision number, given by its bits. -/
  | f64Const (bits : UInt64)
  /-- Combines two integers. -/
  | i32Arith (op : Arith)
  /-- Combines two single-precision numbers. -/
  | f32Arith (op : Arith)
  deriving DecidableEq

/-- An item of the flat instruction stream. -/
inductive Instr (L F : Type) where
  /-- An instruction of one step. -/
  | op (o : Op L F)
  /-- Opens a construct whose label is at its end. -/
  | block (type : BlockType)
  /-- Opens a construct whose label is at its start. -/
  | loop (type : BlockType)
  /-- Ends the innermost construct, or the function. -/
  | close
  deriving DecidableEq

section Renaming

variable {m : Type → Type} [Monad m] {L F L' F' : Type}

/-- Renames the local and the function of an instruction. -/
def Op.rename (onLocal : L → m L') (onFunction : F → m F') : Op L F → m (Op L' F')
  | .unreachable => pure .unreachable
  | .nop => pure .nop
  | .br label => pure (.br label)
  | .brIf label => pure (.brIf label)
  | .ret => pure .ret
  | .call f => do pure (.call (← onFunction f))
  | .drop => pure .drop
  | .localGet l => do pure (.localGet (← onLocal l))
  | .localSet l => do pure (.localSet (← onLocal l))
  | .i32Const v => pure (.i32Const v)
  | .i64Const v => pure (.i64Const v)
  | .f32Const v => pure (.f32Const v)
  | .f64Const v => pure (.f64Const v)
  | .i32Arith o => pure (.i32Arith o)
  | .f32Arith o => pure (.f32Arith o)

/-- Renames the local and the function of a stream item. -/
def Instr.rename (onLocal : L → m L') (onFunction : F → m F') : Instr L F → m (Instr L' F')
  | .op o => do pure (.op (← o.rename onLocal onFunction))
  | .block type => pure (.block type)
  | .loop type => pure (.loop type)
  | .close => pure .close

end Renaming

/-- A function body: its locals in groups of one type, and its instructions up to and including the
`close` that ends the function. -/
structure Code where
  /-- Groups of locals of one type. -/
  locals : List (Nat × ValType)
  /-- The instruction stream. -/
  body : List (Instr Nat Nat)
  deriving DecidableEq

/-! ## Modules -/

/-- What an import stands for. -/
inductive ImportKind where
  /-- A function of the type with this index. -/
  | func (typeIndex : Nat)
  /-- A table. -/
  | table (type : TableType)
  /-- A linear memory. -/
  | memory (extent : Extent)
  /-- A global variable. -/
  | global (type : ValType) (isMutable : Bool)
  deriving DecidableEq

/-- An import: where it comes from and what it stands for. -/
structure Import where
  /-- The module that provides it. -/
  source : String
  /-- The field of that module. -/
  name : String
  /-- What is imported. -/
  kind : ImportKind
  deriving DecidableEq

/-- The index spaces that an export can point into. -/
inductive ExportKind where
  /-- Functions. -/
  | func
  /-- Tables. -/
  | table
  /-- Memories. -/
  | memory
  /-- Globals. -/
  | global
  deriving DecidableEq

/-- An export: a name for an item of an index space. -/
structure Export where
  /-- The name. -/
  name : String
  /-- The index space. -/
  kind : ExportKind
  /-- The position in that space. -/
  index : Nat
  deriving DecidableEq

/-- A module whose function bodies are of type `β`. -/
structure Module (β : Type) where
  /-- Function types. -/
  types : List FuncType
  /-- Imports. -/
  imports : List Import
  /-- Type indices of the functions that the module defines. -/
  functions : List Nat
  /-- Tables that the module defines. -/
  tables : List TableType
  /-- Memories that the module defines. -/
  memories : List Extent
  /-- Exports. -/
  exports : List Export
  /-- The function to run when the module is instantiated. -/
  start : Option Nat
  /-- Bodies of the functions that the module defines. -/
  code : List β
  deriving DecidableEq

namespace Module

variable {β : Type}

/-- Magic number and version, the first bytes of every module. -/
def header : List UInt8 := [0x00, 0x61, 0x73, 0x6D, 0x01, 0x00, 0x00, 0x00]

/-- A module with nothing in it. -/
def empty (β : Type) : Module β :=
  { types := [], imports := [], functions := [], tables := [], memories := [], exports := [],
    start := none, code := [] }

/-- Type indices of all functions, imported ones first. -/
def functionTypeIndices (m : Module β) : List Nat :=
  (m.imports.filterMap fun i => match i.kind with
    | .func t => some t
    | _ => none) ++ m.functions

/-- The number of imported functions. -/
def importedFunctionCount (m : Module β) : Nat :=
  m.functionTypeIndices.length - m.functions.length

/-- The same module with other bodies. -/
def withCode {γ : Type} (m : Module β) (code : List γ) : Module γ :=
  { types := m.types, imports := m.imports, functions := m.functions, tables := m.tables,
    memories := m.memories, exports := m.exports, start := m.start, code := code }

end Module

end WasmForge

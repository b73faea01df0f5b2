import WasmForge.Module.Basic

/-!
# Value types and handles

Programs name their parts by handles.  A function handle is the identity of its program and the
position of the declaration in it; a local handle is the function that owns it and its place there.
Handles are plain data: anyone can make one, and whether it means anything is for a program to say.
-/

namespace WasmForge

/-! ## Value types -/

/-- The type of an expression. -/
inductive ValueType where
  /-- No value. -/
  | void
  /-- A 32-bit integer. -/
  | int32
  /-- A single-precision number. -/
  | float32
  deriving DecidableEq, Inhabited

namespace ValueType

/-- The type as messages show it. -/
def shown : ValueType → String
  | void => "void"
  | int32 => "i32"
  | float32 => "f32"

/-- Can a parameter or a local have this type? -/
def isStorable : ValueType → Bool
  | void => false
  | int32 => true
  | float32 => true

/-- The run-time type of the values, if there are any. -/
def valType? : ValueType → Option ValType
  | void => none
  | int32 => some .i32
  | float32 => some .f32

/-- The byte that stands for the type in a module. -/
def wireCode : ValueType → UInt8
  | void => 0x40
  | int32 => 0x7F
  | float32 => 0x7D

end ValueType

/-! ## Function handles -/

/-- A handle of a function declaration. -/
structure FuncRef where
  /-- The identity of the program. -/
  program : Nat
  /-- The position of the declaration. -/
  index : Nat
  deriving DecidableEq, Inhabited

/-- Handles are ordered by program, then by position. -/
def FuncRef.order (f g : FuncRef) : Ordering :=
  (compare f.program g.program).then (compare f.index g.index)

/-! ## Local handles -/

/-- A place among the locals of a function. -/
inductive Place where
  /-- A parameter. -/
  | param (index : Nat)
  /-- A declared local. -/
  | var (index : Nat)
  deriving DecidableEq, Inhabited

namespace Place

/-- The place as messages show it. -/
def shown : Place → String
  | param i => s!"Param({i})"
  | var i => s!"Var({i})"

/-- Parameters come before declared locals, and both are ordered by position. -/
def order : Place → Place → Ordering
  | param i, param j => compare i j
  | param _, var _ => .lt
  | var _, param _ => .gt
  | var i, var j => compare i j

end Place

/-- A handle of a parameter or declared local. -/
structure Local where
  /-- The function it belongs to. -/
  owner : FuncRef
  /-- Its place in that function. -/
  place : Place
  deriving DecidableEq, Inhabited

/-- Locals are ordered by owner, then by place. -/
def Local.order (l m : Local) : Ordering := (l.owner.order m.owner).then (l.place.order m.place)

end WasmForge

import WasmForge.Program.Handle

/-!
# Slots of locals

A module numbers the locals of a function.  Parameters come first, then the declared integer locals,
then the declared single-precision locals, each in declaration order.  Only the locals that a body
touches get a slot.
-/

namespace WasmForge

/-- Which declared locals have slots, by type. -/
structure SlotLayout where
  /-- The number of parameters. -/
  paramCount : Nat
  /-- Positions of the integer locals, ascending. -/
  ints : List Nat
  /-- Positions of the single-precision locals, ascending. -/
  floats : List Nat
  deriving DecidableEq

namespace SlotLayout

/-- The positions below the number of declared locals that are touched and have the given type. -/
def touchedOf (type : ValueType) (declared : List ValueType) (touched : Nat → Bool) : List Nat :=
  (List.range declared.length).filter fun i => declared[i]? == some type && touched i

/-- The layout for a function with `paramCount` parameters and the given declared locals, of which
those that satisfy `touched` are used. -/
def of (paramCount : Nat) (declared : List ValueType) (touched : Nat → Bool) : SlotLayout :=
  ⟨paramCount, touchedOf .int32 declared touched, touchedOf .float32 declared touched⟩

/-- The slot at a place, if it has one. -/
def slotOf? (s : SlotLayout) : Place → Option Nat
  | .param i => if i < s.paramCount then some i else none
  | .var i =>
    match s.ints.idxOf? i with
    | some k => some (s.paramCount + k)
    | none => (s.floats.idxOf? i).map (s.paramCount + s.ints.length + ·)

/-- The locals in groups of one type; empty groups are left out. -/
def groups (s : SlotLayout) : List (Nat × ValueType) :=
  [(s.ints.length, .int32), (s.floats.length, .float32)].filter (0 < ·.1)

/-- The groups at run time. -/
def localGroups (s : SlotLayout) : List (Nat × ValType) :=
  s.groups.filterMap fun (count, t) => t.valType?.map (count, ·)

end SlotLayout

end WasmForge

import WasmForge.Module.Basic

/-!
# Values at run time
-/

namespace WasmForge

/-- A value of the machine. -/
inductive Value where
  /-- A 32-bit integer. -/
  | i32 (value : Int32)
  /-- A 64-bit integer. -/
  | i64 (value : Int64)
  /-- A single-precision number. -/
  | f32 (value : Single)
  /-- A double-precision number, by its bits. -/
  | f64 (bits : UInt64)
  /-- A reference, by the bits that stand for it; zero is the null reference. -/
  | reference (kind : RefKind) (bits : UInt64)
  deriving DecidableEq

namespace Value

/-- The type of a value. -/
def type : Value → ValType
  | i32 _ => .i32
  | i64 _ => .i64
  | f32 _ => .f32
  | f64 _ => .f64
  | reference kind _ => .reference kind

/-- The value that a local of a type starts with. -/
def zero : ValType → Value
  | .i32 => i32 0
  | .i64 => i64 0
  | .f32 => f32 .zero
  | .f64 => f64 0
  | .reference kind => reference kind 0

/-- The value as the host sees it; the host knows 32-bit values only. -/
def scalar? : Value → Option Scalar
  | i32 v => some (.int v)
  | f32 v => some (.float v)
  | _ => none

/-- A scalar as a value of its own type. -/
def ofScalar : Scalar → Value
  | .int v => i32 v
  | .float v => f32 v

/-- The bits of a scalar, taken as a value of the given type. -/
def reinterpret (s : Scalar) : ValType → Value
  | .i32 => i32 s.asInt
  | .f32 => f32 s.asSingle
  | .i64 => i64 (Int64.ofInt s.bits.toNat)
  | .f64 => f64 s.bits.toUInt64
  | .reference kind => reference kind s.bits.toUInt64

/-- The 64 bits of a value; a shorter value has zeros above it. -/
def bits : Value → UInt64
  | i32 v => v.toUInt32.toUInt64
  | i64 v => v.toUInt64
  | f32 v => v.bits.toUInt64
  | f64 bits => bits
  | reference _ bits => bits

@[simp] theorem type_zero (t : ValType) : (zero t).type = t := by
  cases t <;> rfl

@[simp] theorem type_reinterpret (s : Scalar) (t : ValType) : (reinterpret s t).type = t := by
  cases t <;> rfl

@[simp] theorem scalar?_ofScalar (s : Scalar) : (ofScalar s).scalar? = some s := by
  cases s <;> rfl

/-- A scalar of the right type is taken as it is. -/
@[simp] theorem reinterpret_type_ofScalar (s : Scalar) :
    reinterpret s (ofScalar s).type = ofScalar s := by
  cases s <;> rfl

end Value

end WasmForge

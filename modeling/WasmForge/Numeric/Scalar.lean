import WasmForge.Numeric.Single

/-!
# Scalars and their arithmetic

The values that programs compute with and exchange with their host: 32-bit integers, which wrap,
and single-precision numbers.
-/

namespace WasmForge

/-- The two arithmetic operators. -/
inductive Arith where
  /-- Addition. -/
  | add
  /-- Multiplication. -/
  | mul
  deriving DecidableEq

namespace Arith

/-- The operator sign, for messages. -/
def sign : Arith → String
  | add => "+"
  | mul => "*"

/-- The operator on integers, modulo `2 ^ 32`. -/
def onInt : Arith → Int32 → Int32 → Int32
  | add, x, y => x + y
  | mul, x, y => x * y

/-- The operator on single-precision numbers. -/
def onSingle [SingleArith] : Arith → Single → Single → Single
  | add, x, y => SingleArith.add x y
  | mul, x, y => SingleArith.mul x y

end Arith

/-- A value that can cross the boundary between a module and its host. -/
inductive Scalar where
  /-- An integer. -/
  | int (value : Int32)
  /-- A single-precision number. -/
  | float (value : Single)
  deriving DecidableEq

namespace Scalar

/-- The 32 bits of a scalar. -/
def bits : Scalar → UInt32
  | int v => v.toUInt32
  | float v => v.bits

/-- The integer with the same 32 bits. -/
def asInt (s : Scalar) : Int32 := s.bits.toInt32

/-- The single-precision number with the same 32 bits. -/
def asSingle (s : Scalar) : Single := ⟨s.bits⟩

@[simp] theorem asInt_int (v : Int32) : (int v).asInt = v := rfl

@[simp] theorem asSingle_float (v : Single) : (float v).asSingle = v := rfl

end Scalar

end WasmForge

/-!
# Single-precision numbers

A single-precision number is kept as its 32 bits, so that every pattern, the payload of a NaN
included, survives being stored, copied and written out.  Arithmetic is IEEE 754 with rounding to
the nearest even; a NaN that arithmetic produces has an unspecified payload.
-/

namespace WasmForge

/-- A single-precision number, by its bit pattern. -/
structure Single where
  /-- Sign, exponent and fraction. -/
  bits : UInt32
  deriving DecidableEq, Inhabited

namespace Single

/-- Positive zero. -/
def zero : Single := ⟨0⟩

/-- The number one. -/
def one : Single := ⟨0x3F800000⟩

/-- The pattern without its sign. -/
def magnitude (x : Single) : UInt32 := x.bits &&& 0x7FFFFFFF

/-- Is the pattern one of the NaNs? -/
def isNaN (x : Single) : Bool := x.magnitude > 0x7F800000

/-- Sum, rounded to the nearest even. -/
def add (x y : Single) : Single := ⟨(Float32.ofBits x.bits + Float32.ofBits y.bits).toBits⟩

/-- Product, rounded to the nearest even. -/
def mul (x y : Single) : Single := ⟨(Float32.ofBits x.bits * Float32.ofBits y.bits).toBits⟩

/-- Equality of the numbers that two patterns stand for: the two zeros are equal, and a NaN equals
nothing. -/
def sameNumber (x y : Single) : Bool :=
  !x.isNaN && !y.isNaN && (x.bits == y.bits || (x.magnitude == 0 && y.magnitude == 0))

/-- The four bytes of the pattern, lowest first. -/
def toBytes (x : Single) : List UInt8 :=
  [x.bits.toUInt8, (x.bits >>> 8).toUInt8, (x.bits >>> 16).toUInt8, (x.bits >>> 24).toUInt8]

/-- The pattern whose bytes, lowest first, are given. -/
def ofBytes (a b c d : UInt8) : Single :=
  ⟨(a.toNat + 256 * (b.toNat + 256 * (c.toNat + 256 * d.toNat))).toUInt32⟩

theorem sameNumber_self_of_not_isNaN {x : Single} (h : x.isNaN = false) :
    x.sameNumber x = true := by
  simp [sameNumber, h]

theorem sameNumber_eq_false_of_isNaN {x : Single} (y : Single) (h : x.isNaN = true) :
    x.sameNumber y = false := by
  simp [sameNumber, h]

/-- The bytes of a pattern give the pattern back. -/
theorem ofBytes_toBytes (x : Single) :
    ofBytes x.bits.toUInt8 (x.bits >>> 8).toUInt8 (x.bits >>> 16).toUInt8 (x.bits >>> 24).toUInt8
      = x := by
  have bound := x.bits.toNat_lt
  suffices h : (ofBytes x.bits.toUInt8 (x.bits >>> 8).toUInt8 (x.bits >>> 16).toUInt8
      (x.bits >>> 24).toUInt8).bits = x.bits by
    cases x
    exact congrArg Single.mk h
  apply UInt32.toNat_inj.1
  simp [ofBytes, Nat.shiftRight_eq_div_pow]
  omega

end Single

/-- The arithmetic on single-precision numbers.  Evaluation and execution share it, and nothing else
is asked of it: which NaN it gives, for one, may differ between machines. -/
class SingleArith where
  /-- The sum. -/
  add : Single → Single → Single
  /-- The product. -/
  mul : Single → Single → Single

/-- The arithmetic of the machine that this runs on. -/
instance : SingleArith := ⟨Single.add, Single.mul⟩

end WasmForge

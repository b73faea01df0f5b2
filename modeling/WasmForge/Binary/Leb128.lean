/-!
# Variable-length integers

Integers are written in groups of seven bits, lowest group first.  Every byte but the last has its
high bit set.  A signed number is written in two's complement and ends with the first group whose
bit 6 agrees with the sign.

* `encodeNat`, `encodeInt` write the shortest form.
* `decodeNat`, `decodeInt` read a number of at most a given bit width and hand back the bytes after
  it.  They accept over-long forms as long as the width holds them, and nothing else.
* `decodeNat_encodeNat`, `decodeInt_encodeInt`: reading takes back what writing produced, whatever
  bytes follow.
-/

namespace WasmForge.Leb128

/-! ## Writing -/

/-- The unsigned form of `n`. -/
def encodeNat (n : Nat) : List UInt8 :=
  if n < 128 then [n.toUInt8] else (n % 128 + 128).toUInt8 :: encodeNat (n / 128)
termination_by n
decreasing_by omega

/-- The signed form of `z`. -/
def encodeInt (z : Int) : List UInt8 :=
  if -64 ≤ z ∧ z < 64 then [(z % 128).toNat.toUInt8]
  else ((z % 128).toNat + 128).toUInt8 :: encodeInt (z / 128)
termination_by z.natAbs
decreasing_by omega

/-! ## Reading -/

/-- Reads an unsigned number below `2 ^ width` and returns it with the bytes after it. -/
def decodeNat (width : Nat) : List UInt8 → Option (Nat × List UInt8)
  | [] => none
  | b :: rest =>
    if b.toNat < 128 then
      if b.toNat < Nat.pow 2 width then some (b.toNat, rest) else none
    else if 7 < width then
      match decodeNat (width - 7) rest with
      | some (high, rest') => some (b.toNat - 128 + 128 * high, rest')
      | none => none
    else none

/-- Reads a signed number in `[-2 ^ (width - 1), 2 ^ (width - 1))` and returns it with the bytes
after it. -/
def decodeInt (width : Nat) : List UInt8 → Option (Int × List UInt8)
  | [] => none
  | b :: rest =>
    if b.toNat < 64 then
      if b.toNat < Nat.pow 2 (width - 1) then some (b.toNat, rest) else none
    else if b.toNat < 128 then
      if 128 ≤ b.toNat + Nat.pow 2 (width - 1) then some ((b.toNat : Int) - 128, rest) else none
    else if 7 < width then
      match decodeInt (width - 7) rest with
      | some (high, rest') => some (((b.toNat - 128 : Nat) : Int) + 128 * high, rest')
      | none => none
    else none

/-! ## Reading takes back what writing produced -/

theorem toNat_toUInt8 {n : Nat} (h : n < 256) : n.toUInt8.toNat = n := by
  simp [Nat.mod_eq_of_lt h]

/-- Seven bits more hold 128 times as many numbers. -/
theorem two_pow_add_seven {k high : Nat} (h : k = high + 7) :
    Nat.pow 2 k = 128 * Nat.pow 2 high := by
  rw [h, Nat.pow_eq, Nat.pow_eq, Nat.pow_add, Nat.mul_comm]

/-- A number below `2 ^ width` is read back, and the bytes after it are left alone. -/
theorem decodeNat_encodeNat (width n : Nat) (h : n < Nat.pow 2 width) (rest : List UInt8) :
    decodeNat width (encodeNat n ++ rest) = some (n, rest) := by
  induction n using Nat.strongRecOn generalizing width with
  | ind n ih =>
    have h : n < 2 ^ width := h
    rw [encodeNat]
    split
    · next small =>
      simp [decodeNat, toNat_toUInt8 (by omega : n < 256), small, h]
    · next big =>
      have byte := toNat_toUInt8 (by omega : n % 128 + 128 < 256)
      have wide : 7 < width := by
        rcases Nat.lt_or_ge 7 width with hw | hw
        · exact hw
        · have : 2 ^ width ≤ 2 ^ 7 := Nat.pow_le_pow_right (by omega) hw
          omega
      have split : 2 ^ width = 128 * 2 ^ (width - 7) := two_pow_add_seven (by omega)
      have high : n / 128 < 2 ^ (width - 7) := by omega
      simp only [List.cons_append, decodeNat, byte, ih (n / 128) (by omega) (width - 7) high]
      rw [if_neg (by omega), if_pos wide]
      simp only [Option.some.injEq, Prod.mk.injEq, and_true]
      omega

/-- A number that the width holds is read back, and the bytes after it are left alone. -/
theorem decodeInt_encodeInt (width : Nat) (z : Int) (low : -(Nat.pow 2 (width - 1) : Int) ≤ z)
    (high : z < (Nat.pow 2 (width - 1) : Int)) (rest : List UInt8) :
    decodeInt width (encodeInt z ++ rest) = some (z, rest) := by
  induction hn : z.natAbs using Nat.strongRecOn generalizing z width with
  | ind n ih =>
    rw [Nat.pow_eq] at low high
    rw [encodeInt]
    split
    · next small =>
      have byte := toNat_toUInt8 (by omega : (z % 128).toNat < 256)
      simp only [List.cons_append, List.nil_append, decodeInt, byte, Nat.pow_eq]
      by_cases neg : z < 0
      · rw [if_neg (by omega), if_pos (by omega), if_pos (by omega)]
        simp only [Option.some.injEq, Prod.mk.injEq, and_true]
        omega
      · rw [if_pos (by omega), if_pos (by omega)]
        simp only [Option.some.injEq, Prod.mk.injEq, and_true]
        omega
    · next big =>
      have byte := toNat_toUInt8 (by omega : (z % 128).toNat + 128 < 256)
      have wide : 7 < width := by
        rcases Nat.lt_or_ge 7 width with hw | hw
        · exact hw
        · have : 2 ^ (width - 1) ≤ 2 ^ 6 := Nat.pow_le_pow_right (by omega) (by omega)
          omega
      have split : 2 ^ (width - 1) = 128 * 2 ^ (width - 7 - 1) := two_pow_add_seven (by omega)
      have step := ih (z / 128).natAbs (by omega) (width - 7) (z / 128)
        (by rw [Nat.pow_eq]; omega) (by rw [Nat.pow_eq]; omega) rfl
      simp only [List.cons_append, decodeInt, byte, step]
      rw [if_neg (by omega), if_neg (by omega), if_pos wide]
      simp only [Option.some.injEq, Prod.mk.injEq, and_true]
      omega

end WasmForge.Leb128

import Mathlib
import WasmForge.Binary.Reader

/-!
# Shortest forms

A number can be written in many ways, because a reader takes groups that add nothing: zeros behind
an unsigned number, copies of the sign behind a signed one.  The form that is written is the
shortest of them: whatever is read as the number takes at least as many bytes.

* `Leb128.decodeNat_cases`, `Leb128.decodeInt_cases`: how a number is read, group by group.
* `Leb128.length_encodeNat_le`, `Leb128.length_encodeInt_le`: nothing shorter than the written form
  is read as the number.
* `Leb128.eq_encodeNat_of_length`: an unsigned number has no other form of that length.
* `Bytes.appendU32`, `Bytes.appendI32`: writing a number by shifts and masks, behind the bytes of a
  sink.
* `Bytes.appendU32_canonical`, `Bytes.appendI32_shortest`: what that appends, and how it is read.
-/

namespace WasmForge

namespace Leb128

/-! ## Unsigned numbers -/

/-- An unsigned number is read from one byte, or from a byte that is not the last one and a narrower
number after it. -/
theorem decodeNat_cases {width : Nat} {bs rest : List UInt8} {n : Nat}
    (read : decodeNat width bs = some (n, rest)) :
    (∃ b, bs = b :: rest ∧ n = b.toNat ∧ b.toNat < 128) ∨
    (∃ b tail high, bs = b :: tail ∧ 128 ≤ b.toNat ∧ 7 < width ∧
      decodeNat (width - 7) tail = some (high, rest) ∧ n = b.toNat - 128 + 128 * high) := by
  cases bs with
  | nil => simp [decodeNat] at read
  | cons b tail =>
    simp only [decodeNat, Nat.pow_eq] at read
    by_cases last : b.toNat < 128
    · rw [if_pos last] at read
      by_cases fits : b.toNat < 2 ^ width
      · rw [if_pos fits] at read
        cases read
        exact .inl ⟨b, rfl, rfl, last⟩
      · simp [fits] at read
    · rw [if_neg last] at read
      by_cases wide : 7 < width
      · rw [if_pos wide] at read
        cases more : decodeNat (width - 7) tail with
        | none => simp [more] at read
        | some result =>
          obtain ⟨high, after⟩ := result
          simp only [more] at read
          cases read
          exact .inr ⟨b, tail, high, rfl, by omega, wide, more, rfl⟩
      · simp [wide] at read

/-- An unsigned number takes at most one byte for every seven bits of its width. -/
theorem decodeNat_length_le {width : Nat} (some_width : 0 < width) {bs rest : List UInt8} {n : Nat}
    (read : decodeNat width bs = some (n, rest)) :
    bs.length ≤ (width + 6) / 7 + rest.length := by
  induction bs generalizing width n with
  | nil => simp [decodeNat] at read
  | cons b tail ih =>
    rcases decodeNat_cases read with ⟨_, ⟨⟩, -⟩ | ⟨_, _, high, ⟨⟩, -, wide, more, -⟩
    · simp only [List.length_cons]
      omega
    · have narrower := ih (by omega) more
      simp only [List.length_cons]
      omega

theorem encodeNat_of_small {n : Nat} (small : n < 128) : encodeNat n = [n.toUInt8] := by
  rw [encodeNat, if_pos small]

theorem encodeNat_of_large {n : Nat} (large : ¬n < 128) :
    encodeNat n = (n % 128 + 128).toUInt8 :: encodeNat (n / 128) := by
  rw [encodeNat, if_neg large]

theorem encodeNat_length_pos (n : Nat) : 0 < (encodeNat n).length := by
  by_cases small : n < 128
  · simp [encodeNat_of_small small]
  · simp [encodeNat_of_large small]

/-- Whatever is read as the number takes at least as many bytes as its written form. -/
theorem length_encodeNat_le {width : Nat} {bs rest : List UInt8} {n : Nat}
    (read : decodeNat width bs = some (n, rest)) :
    (encodeNat n).length + rest.length ≤ bs.length := by
  induction bs generalizing width n with
  | nil => simp [decodeNat] at read
  | cons b tail ih =>
    rcases decodeNat_cases read with ⟨_, ⟨⟩, rfl, last⟩ | ⟨_, _, high, ⟨⟩, -, -, more, value⟩
    · simp [encodeNat_of_small last, Nat.add_comm]
    · have shorter := ih more
      have byte := b.toNat_lt
      by_cases small : n < 128
      · have some_group := encodeNat_length_pos high
        simp only [encodeNat_of_small small, List.length_cons, List.length_nil]
        omega
      · have shifted : n / 128 = high := by omega
        simp only [encodeNat_of_large small, shifted, List.length_cons]
        omega

/-- Nothing else of the same length is read as the number. -/
theorem eq_encodeNat_of_length {width : Nat} {bs rest : List UInt8} {n : Nat}
    (read : decodeNat width bs = some (n, rest))
    (shortest : bs.length = (encodeNat n).length + rest.length) : bs = encodeNat n ++ rest := by
  induction bs generalizing width n with
  | nil => simp [decodeNat] at read
  | cons b tail ih =>
    rcases decodeNat_cases read with ⟨_, ⟨⟩, rfl, last⟩ | ⟨_, _, high, ⟨⟩, group, -, more, value⟩
    · simp [encodeNat_of_small last]
    · have byte := b.toNat_lt
      by_cases small : n < 128
      · -- only zero groups follow the first byte, and the written form has none of them
        have some_group := encodeNat_length_pos high
        have follows := length_encodeNat_le more
        simp only [encodeNat_of_small small, List.length_cons, List.length_nil] at shortest
        omega
      · have shifted : n / 128 = high := by omega
        have first : (n % 128 + 128).toUInt8 = b := by
          rw [← UInt8.toNat_inj, toNat_toUInt8 (by omega)]
          omega
        rw [encodeNat_of_large small, shifted, first] at shortest ⊢
        simp only [List.length_cons] at shortest
        rw [ih more (by omega), List.cons_append]

/-! ## Signed numbers -/

/-- A signed number is read from one byte, or from a byte that is not the last one and a narrower
number after it. -/
theorem decodeInt_cases {width : Nat} {bs rest : List UInt8} {z : Int}
    (read : decodeInt width bs = some (z, rest)) :
    (∃ b, bs = b :: rest ∧ (-64 ≤ z ∧ z < 64) ∧
      -(2 ^ (width - 1) : Nat) ≤ z ∧ z < (2 ^ (width - 1) : Nat)) ∨
    (∃ b tail high, bs = b :: tail ∧ 128 ≤ b.toNat ∧ 7 < width ∧
      decodeInt (width - 7) tail = some (high, rest) ∧
      z = ((b.toNat - 128 : Nat) : Int) + 128 * high) := by
  cases bs with
  | nil => simp [decodeInt] at read
  | cons b tail =>
    simp only [decodeInt, Nat.pow_eq] at read
    have pos : 0 < 2 ^ (width - 1) := Nat.two_pow_pos _
    by_cases low : b.toNat < 64
    · rw [if_pos low] at read
      by_cases fits : b.toNat < 2 ^ (width - 1)
      · rw [if_pos fits] at read
        cases read
        exact .inl ⟨b, rfl, by omega, by omega, by omega⟩
      · simp [fits] at read
    · rw [if_neg low] at read
      by_cases last : b.toNat < 128
      · rw [if_pos last] at read
        by_cases fits : 128 ≤ b.toNat + 2 ^ (width - 1)
        · rw [if_pos fits] at read
          cases read
          exact .inl ⟨b, rfl, by omega, by omega, by omega⟩
        · simp [fits] at read
      · rw [if_neg last] at read
        by_cases wide : 7 < width
        · rw [if_pos wide] at read
          cases more : decodeInt (width - 7) tail with
          | none => simp [more] at read
          | some result =>
            obtain ⟨high, after⟩ := result
            simp only [more] at read
            cases read
            exact .inr ⟨b, tail, high, rfl, by omega, wide, more, rfl⟩
        · simp [wide] at read

/-- What is read fits the width. -/
theorem decodeInt_fits {width : Nat} {bs rest : List UInt8} {z : Int}
    (read : decodeInt width bs = some (z, rest)) :
    -(2 ^ (width - 1) : Nat) ≤ z ∧ z < (2 ^ (width - 1) : Nat) := by
  induction bs generalizing width z with
  | nil => simp [decodeInt] at read
  | cons b tail ih =>
    rcases decodeInt_cases read with ⟨_, -, -, fits⟩ | ⟨_, _, high, ⟨⟩, group, wide, more, rfl⟩
    · exact fits
    · have narrower := ih more
      have split : 2 ^ (width - 1) = 128 * 2 ^ (width - 7 - 1) := two_pow_add_seven (by omega)
      have byte := b.toNat_lt
      omega

/-- A signed number takes at most one byte for every seven bits of its width. -/
theorem decodeInt_length_le {width : Nat} (some_width : 0 < width) {bs rest : List UInt8} {z : Int}
    (read : decodeInt width bs = some (z, rest)) :
    bs.length ≤ (width + 6) / 7 + rest.length := by
  induction bs generalizing width z with
  | nil => simp [decodeInt] at read
  | cons b tail ih =>
    rcases decodeInt_cases read with ⟨_, ⟨⟩, -⟩ | ⟨_, _, high, ⟨⟩, -, wide, more, -⟩
    · simp only [List.length_cons]
      omega
    · have narrower := ih (by omega) more
      simp only [List.length_cons]
      omega

theorem encodeInt_of_small {z : Int} (small : -64 ≤ z ∧ z < 64) :
    encodeInt z = [(z % 128).toNat.toUInt8] := by
  rw [encodeInt, if_pos small]

theorem encodeInt_of_large {z : Int} (large : ¬(-64 ≤ z ∧ z < 64)) :
    encodeInt z = ((z % 128).toNat + 128).toUInt8 :: encodeInt (z / 128) := by
  rw [encodeInt, if_neg large]

theorem encodeInt_length_pos (z : Int) : 0 < (encodeInt z).length := by
  by_cases small : -64 ≤ z ∧ z < 64
  · simp [encodeInt_of_small small]
  · simp [encodeInt_of_large small]

/-- Whatever is read as the number takes at least as many bytes as its written form. -/
theorem length_encodeInt_le {width : Nat} {bs rest : List UInt8} {z : Int}
    (read : decodeInt width bs = some (z, rest)) :
    (encodeInt z).length + rest.length ≤ bs.length := by
  -- the written form of `z` has one group more than that of `z / 128`, which is what follows the
  -- first byte, unless `z` is written in one byte
  induction bs generalizing width z with
  | nil => simp [decodeInt] at read
  | cons b tail ih =>
    rcases decodeInt_cases read with ⟨_, ⟨⟩, small, -⟩ | ⟨_, _, high, ⟨⟩, -, -, more, value⟩
    · simp [encodeInt_of_small small, Nat.add_comm]
    · have shorter := ih more
      have byte := b.toNat_lt
      by_cases small : -64 ≤ z ∧ z < 64
      · have some_group := encodeInt_length_pos high
        simp only [encodeInt_of_small small, List.length_cons, List.length_nil]
        omega
      · have shifted : z / 128 = high := by omega
        simp only [encodeInt_of_large small, shifted, List.length_cons]
        omega

end Leb128

namespace Bytes

/-! ## Unsigned numbers by shifts and masks -/

theorem toNat_or_high {group : UInt8} (seven : group.toNat < 128) :
    (group ||| 0x80).toNat = group.toNat + 128 := by
  have set : (group ||| 0x80).toNat = 2 ^ 7 * 1 ||| group.toNat := Nat.or_comm ..
  rw [set, ← Nat.two_pow_add_eq_or_of_lt seven]
  omega

theorem toNat_shiftRight_seven (v : UInt32) : (v >>> 7).toNat = v.toNat / 128 :=
  Nat.shiftRight_eq_div_pow v.toNat 7

theorem toNat_and_low (v : UInt32) : (v &&& 0x7F).toUInt8.toNat = v.toNat % 128 := by
  have masked : (v &&& 0x7F).toNat = v.toNat % 128 := Nat.and_two_pow_sub_one_eq_mod v.toNat 7
  rw [UInt32.toNat_toUInt8, masked]
  omega

/-- Nothing is left behind the last group. -/
theorem shiftRight_seven_eq_zero (v : UInt32) : v >>> 7 = 0 ↔ v.toNat < 128 := by
  rw [← UInt32.toNat_inj, toNat_shiftRight_seven, UInt32.toNat_zero]
  omega

/-- Writes an unsigned number behind the bytes of a sink, group by group. -/
def appendU32 (sink : Bytes) (v : UInt32) : Bytes :=
  if v >>> 7 = 0 then sink ++ [(v &&& 0x7F).toUInt8]
  else appendU32 (sink ++ [(v &&& 0x7F).toUInt8 ||| 0x80]) (v >>> 7)
termination_by v.toNat
decreasing_by
  rename_i more
  rw [shiftRight_seven_eq_zero] at more
  rw [toNat_shiftRight_seven]
  omega

/-- Shifts and masks append the written form. -/
theorem appendU32_eq (sink : Bytes) (v : UInt32) : appendU32 sink v = sink ++ u32 v.toNat := by
  fun_induction appendU32 sink v with
  | case1 sink v last =>
    rw [shiftRight_seven_eq_zero] at last
    have byte : (v &&& 0x7F).toUInt8 = v.toNat.toUInt8 := by
      rw [← UInt8.toNat_inj, toNat_and_low, Leb128.toNat_toUInt8 (by omega)]
      omega
    rw [u32, Leb128.encodeNat_of_small last, byte]
  | case2 sink v more ih =>
    rw [shiftRight_seven_eq_zero] at more
    have group := toNat_and_low v
    have byte : (v &&& 0x7F).toUInt8 ||| 0x80 = (v.toNat % 128 + 128).toUInt8 := by
      rw [← UInt8.toNat_inj, Leb128.toNat_toUInt8 (by omega), toNat_or_high (by omega), group]
    rw [ih, u32, u32, toNat_shiftRight_seven, Leb128.encodeNat_of_large more, byte]
    simp

/-- Writing an unsigned number leaves the sink as it was and appends one to five bytes.  These are
read as the number, whatever follows them.  Nothing shorter is, and nothing else of that length. -/
theorem appendU32_canonical (sink : Bytes) (v : UInt32) :
    ∃ e, appendU32 sink v = sink ++ e ∧ e = u32 v.toNat ∧ (1 ≤ e.length ∧ e.length ≤ 5) ∧
      (∀ rest, Reader.u32 (e ++ rest) = some (v.toNat, rest)) ∧
      ∀ bs rest, Reader.u32 bs = some (v.toNat, rest) →
        e.length + rest.length ≤ bs.length ∧
          (bs.length = e.length + rest.length → bs = e ++ rest) := by
  have reads := Reader.reads_u32 v.toNat_lt
  have whole := reads []
  rw [List.append_nil] at whole
  have short := Leb128.decodeNat_length_le (by decide) whole
  refine ⟨u32 v.toNat, appendU32_eq sink v, rfl, ⟨?_, by simpa using short⟩, reads, ?_⟩
  · exact Leb128.encodeNat_length_pos v.toNat
  · intro bs rest read
    exact ⟨Leb128.length_encodeNat_le read, Leb128.eq_encodeNat_of_length read⟩

/-! ## Signed numbers by shifts and masks -/

/-- An arithmetic shift by seven bits rounds down. -/
theorem toInt_shiftRight_seven (v : Int32) : (v >>> 7).toInt = v.toInt / 128 := by
  have shift : (7 : Int32).toBitVec.smod 32 = 7#32 := by decide
  show (v >>> 7).toBitVec.toInt = _
  rw [Int32.toBitVec_shiftRight, shift]
  show (v.toBitVec.sshiftRight 7).toInt = _
  rw [BitVec.toInt_sshiftRight, Int.shiftRight_eq_div_pow]
  rfl

/-- The lowest seven bits. -/
def lowGroup (v : Int32) : UInt8 := (v &&& 0x7F).toUInt32.toUInt8

theorem toNat_lowGroup (v : Int32) : ((lowGroup v).toNat : Int) = v.toInt % 128 := by
  have group : (lowGroup v).toNat = v.toBitVec.toNat % 128 := toNat_and_low v.toUInt32
  have signed : v.toInt = _ := BitVec.toInt_eq_toNat_cond v.toBitVec
  rw [group, signed]
  split <;> omega

theorem lowGroup_lt (v : Int32) : (lowGroup v).toNat < 128 := by
  have group := toNat_lowGroup v
  omega

/-- Does a group of seven bits stand for a negative number? -/
def isNegative (group : UInt8) : Bool := group &&& 0x40 != 0

theorem isNegative_iff {group : UInt8} (seven : group.toNat < 128) :
    isNegative group = true ↔ 64 ≤ group.toNat := by
  have masked : (group &&& 0x40).toNat = (group.toNat.testBit 6).toNat * 64 :=
    Nat.and_two_pow group.toNat 6
  have bit : group.toNat.testBit 6 = decide (64 ≤ group.toNat) := by
    rw [Nat.testBit_eq_decide_div_mod_eq]
    congr 1
    simp only [eq_iff_iff]
    omega
  rw [isNegative, bne_iff_ne, ne_eq, ← UInt8.toNat_inj, masked, bit]
  by_cases high : 64 ≤ group.toNat <;> simp [high]

/-- Is the group the last one, if this is left after it?  Then the rest is all sign, and the group
shows the sign. -/
def isLast (group : UInt8) (rest : Int32) : Bool :=
  rest == 0 && !isNegative group || rest == -1 && isNegative group

/-- The number ends with the first group that it fits into. -/
theorem isLast_iff (v : Int32) :
    isLast (lowGroup v) (v >>> 7) = true ↔ -64 ≤ v.toInt ∧ v.toInt < 64 := by
  have group := toNat_lowGroup v
  have sign := isNegative_iff (lowGroup_lt v)
  have zero : v >>> 7 = 0 ↔ v.toInt / 128 = 0 := by
    rw [← Int32.toInt_inj, toInt_shiftRight_seven]
    rfl
  have ones : v >>> 7 = -1 ↔ v.toInt / 128 = -1 := by
    rw [← Int32.toInt_inj, toInt_shiftRight_seven]
    rfl
  simp only [isLast, Bool.or_eq_true, Bool.and_eq_true, beq_iff_eq, Bool.not_eq_true',
    ← Bool.not_eq_true, sign, zero, ones]
  omega

/-- Writes a number behind the bytes of a sink, group by group. -/
def appendI32 (sink : Bytes) (v : Int32) : Bytes :=
  if isLast (lowGroup v) (v >>> 7) then sink ++ [lowGroup v]
  else appendI32 (sink ++ [lowGroup v ||| 0x80]) (v >>> 7)
termination_by v.toInt.natAbs
decreasing_by
  rename_i more
  rw [isLast_iff] at more
  rw [toInt_shiftRight_seven]
  omega

/-- Shifts and masks append the written form. -/
theorem appendI32_eq (sink : Bytes) (v : Int32) : appendI32 sink v = sink ++ i32 v := by
  fun_induction appendI32 sink v with
  | case1 sink v last =>
    have group := toNat_lowGroup v
    have byte : lowGroup v = (v.toInt % 128).toNat.toUInt8 := by
      rw [← UInt8.toNat_inj, Leb128.toNat_toUInt8 (by omega)]
      omega
    rw [i32, Leb128.encodeInt_of_small ((isLast_iff v).1 last), byte]
  | case2 sink v more ih =>
    rw [isLast_iff] at more
    have group := toNat_lowGroup v
    have byte : lowGroup v ||| 0x80 = ((v.toInt % 128).toNat + 128).toUInt8 := by
      rw [← UInt8.toNat_inj, Leb128.toNat_toUInt8 (by omega), toNat_or_high (lowGroup_lt v)]
      omega
    rw [ih, i32, i32, toInt_shiftRight_seven, Leb128.encodeInt_of_large more, byte]
    simp

/-- What is read as a 32-bit number is the number itself. -/
theorem decodeInt_of_i32 {bs rest : Bytes} {v : Int32} (read : Reader.i32 bs = some (v, rest)) :
    Leb128.decodeInt 32 bs = some (v.toInt, rest) := by
  obtain ⟨⟨z, after⟩, decoded, same⟩ := Option.map_eq_some_iff.1 read
  obtain ⟨rfl, rfl⟩ := Prod.mk.inj same
  have fits := Leb128.decodeInt_fits decoded
  rw [decoded, Int32.toInt_ofInt_of_le (by omega) (by omega)]

/-- Writing a signed number leaves the sink as it was and appends one to five bytes.  These are read
as the number, whatever follows them, and nothing shorter is. -/
theorem appendI32_shortest (sink : Bytes) (v : Int32) :
    ∃ e, appendI32 sink v = sink ++ e ∧ e = i32 v ∧ (1 ≤ e.length ∧ e.length ≤ 5) ∧
      (∀ rest, Reader.i32 (e ++ rest) = some (v, rest)) ∧
      ∀ bs rest, Reader.i32 bs = some (v, rest) → e.length + rest.length ≤ bs.length := by
  have whole := Reader.reads_i32 v []
  rw [List.append_nil] at whole
  have short := Leb128.decodeInt_length_le (by decide) (decodeInt_of_i32 whole)
  refine ⟨i32 v, appendI32_eq sink v, rfl, ⟨?_, by simpa using short⟩, Reader.reads_i32 v, ?_⟩
  · exact Leb128.encodeInt_length_pos v.toInt
  · intro bs rest read
    exact Leb128.length_encodeInt_le (decodeInt_of_i32 read)

end Bytes

end WasmForge

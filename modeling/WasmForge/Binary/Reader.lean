import WasmForge.Binary.Bytes

/-!
# Reading pieces of the binary format

A reader takes a piece off the front of a byte sequence and hands back the rest, or refuses.  There
is one reader for each shape of `WasmForge.Bytes`.

`Reader.Reads r bs a` says that `r` takes exactly the bytes `bs` for the value `a`, whatever follows
them.  Numbers are read that way from what was written (`reads_u32`, `reads_i32`, `reads_single`).
-/

namespace WasmForge

/-- Takes an `α` off the front of a byte sequence. -/
abbrev Reader (α : Type) : Type := StateT Bytes Option α

namespace Reader

variable {α : Type}

/-- One byte. -/
def byte : Reader UInt8
  | [] => none
  | b :: rest => some (b, rest)

/-- Exactly the given bytes. -/
def exactly (expected : Bytes) : Reader Unit := fun bs =>
  if expected.isPrefixOf bs then some ((), bs.drop expected.length) else none

/-- The next `n` bytes. -/
def take (n : Nat) : Reader Bytes := fun bs =>
  if n ≤ bs.length then some (bs.take n, bs.drop n) else none

/-- An unsigned 32-bit number. -/
def u32 : Reader Nat := Leb128.decodeNat 32

/-- An unsigned 64-bit number. -/
def u64 : Reader Nat := Leb128.decodeNat 64

/-- A signed 32-bit number. -/
def i32 : Reader Int32 := fun bs =>
  (Leb128.decodeInt 32 bs).map fun (z, rest) => (Int32.ofInt z, rest)

/-- A signed 64-bit number. -/
def i64 : Reader Int64 := fun bs =>
  (Leb128.decodeInt 64 bs).map fun (z, rest) => (Int64.ofInt z, rest)

/-- The four bytes of a single-precision number. -/
def single : Reader Single
  | a :: b :: c :: d :: rest => some (Single.ofBytes a b c d, rest)
  | _ => none

/-- A payload with its size in front. -/
def sized : Reader Bytes := do take (← u32)

/-- The greatest size of a name in bytes. -/
def maxNameSize : Nat := 100000

/-- A name. -/
def name : Reader String := do
  let bs ← sized
  if bs.length ≤ maxNameSize then Bytes.toText? bs else failure

/-- `n` items in a row. -/
def times (item : Reader α) : Nat → Reader (List α)
  | 0 => pure []
  | n + 1 => do
    let a ← item
    let rest ← times item n
    pure (a :: rest)

/-- A vector of items. -/
def vector (item : Reader α) : Reader (List α) := do times item (← u32)

/-- Items until the bytes run out, at most `fuel` of them. -/
def upTo (item : Reader α) : (fuel : Nat) → Bytes → Option (List α)
  | _, [] => some []
  | 0, _ :: _ => none
  | fuel + 1, bs => do
    let (a, rest) ← item bs
    let items ← upTo item fuel rest
    some (a :: items)

/-- Items until the bytes run out.  An item takes at least one byte, so the number of bytes bounds
the number of items. -/
def many (item : Reader α) (bs : Bytes) : Option (List α) := upTo item bs.length bs

/-- The value of a reader that has to use up all bytes. -/
def whole (item : Reader α) (bs : Bytes) : Option α :=
  match item bs with
  | some (a, []) => some a
  | _ => none

/-! ## What readers take -/

/-- The reader takes exactly these bytes for the value, whatever follows them. -/
def Reads (r : Reader α) (bs : Bytes) (a : α) : Prop := ∀ rest, r (bs ++ rest) = some (a, rest)

theorem reads_pure (a : α) : Reads (pure a) [] a := fun _ => rfl

theorem reads_byte (b : UInt8) : Reads byte [b] b := fun _ => rfl

theorem reads_take (bs : Bytes) : Reads (take bs.length) bs bs := by
  intro rest
  simp [take]

theorem reads_u32 {n : Nat} (h : n < UInt32.size) : Reads u32 (Bytes.u32 n) n :=
  fun rest => Leb128.decodeNat_encodeNat 32 n h rest

theorem reads_i32 (v : Int32) : Reads i32 (Bytes.i32 v) v := by
  intro rest
  have low : -(2 ^ (32 - 1) : Nat) ≤ v.toInt := by
    have := v.le_toInt
    omega
  have high : v.toInt < (2 ^ (32 - 1) : Nat) := by
    have := v.toInt_lt
    omega
  simp [i32, Bytes.i32, Leb128.decodeInt_encodeInt 32 v.toInt low high rest]

theorem reads_single (x : Single) : Reads single x.toBytes x := by
  intro rest
  show some (Single.ofBytes _ _ _ _, rest) = some (x, rest)
  rw [Single.ofBytes_toBytes]

end Reader

end WasmForge

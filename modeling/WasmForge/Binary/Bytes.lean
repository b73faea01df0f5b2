import WasmForge.Binary.Leb128
import WasmForge.Numeric.Single

/-!
# Pieces of the binary format

Everything in a module is built from a few shapes: integers of variable length, bit patterns of
fixed length, names, vectors and sections.  A vector is its length followed by its items; a name is
a vector of UTF-8 bytes; a section is a tag followed by its payload with the payload's size in
front.
-/

namespace WasmForge

/-- A sequence of bytes. -/
abbrev Bytes : Type := List UInt8

namespace Bytes

/-- An unsigned 32-bit number. -/
def u32 (n : Nat) : Bytes := Leb128.encodeNat n

/-- A signed 32-bit number. -/
def i32 (v : Int32) : Bytes := Leb128.encodeInt v.toInt

/-- A payload with its size in front. -/
def sized (payload : Bytes) : Bytes := u32 payload.length ++ payload

/-- The UTF-8 bytes of a text. -/
def ofText (s : String) : Bytes := s.toUTF8.data.toList

/-- The text that a sequence of UTF-8 bytes spells. -/
def toText? (bs : Bytes) : Option String := String.fromUTF8? ⟨bs.toArray⟩

/-- A name: its size in bytes, then its UTF-8 bytes. -/
def name (s : String) : Bytes := sized (ofText s)

/-- A vector: the number of items, then the items. -/
def vector (items : List Bytes) : Bytes := u32 items.length ++ items.flatten

/-- A section: its tag, then its sized payload. -/
def taggedSection (tag : UInt8) (payload : Bytes) : Bytes := tag :: sized payload

/-- Spelling a text in UTF-8 and reading the bytes gives the text back. -/
@[simp] theorem toText?_ofText (s : String) : toText? (ofText s) = some s := by
  have bytes : (⟨(ofText s).toArray⟩ : ByteArray) = s.toUTF8 := by simp [ofText]
  have valid : s.toUTF8.IsValidUTF8 := s.isValidUTF8
  rw [toText?, bytes, String.fromUTF8?, dif_pos valid]
  rfl

end Bytes

end WasmForge

import WasmForge.Json.Token

/-!
# Strings of JSON text

What stands between the quotes of a string, and the text that it spells.  Writing escapes the quote,
the backslash and the control characters, and nothing else.  Reading accepts every escape of the
format; code units that are halves of a pair have to come in pairs.

* `escape`, `quote`: from a text to its written form.
* `unescape?`, `decodeText?`: from the written form to the text.
-/

namespace WasmForge.Json

/-! ## Writing -/

/-- The digit for a number below sixteen. -/
def hexDigit (n : Nat) : Char := Nat.digitChar n

/-- The written form of a character. -/
def escapeChar (c : Char) : List Char :=
  match c with
  | '"' => ['\\', '"']
  | '\\' => ['\\', '\\']
  | '\x08' => ['\\', 'b']
  | '\t' => ['\\', 't']
  | '\n' => ['\\', 'n']
  | '\x0c' => ['\\', 'f']
  | '\r' => ['\\', 'r']
  | _ =>
    if c.toNat < 0x20 then ['\\', 'u', '0', '0', hexDigit (c.toNat / 16), hexDigit (c.toNat % 16)]
    else [c]

/-- The written form of a text, without quotes. -/
def escape (s : String) : List Char := s.toList.flatMap escapeChar

/-- The written form of a text, with quotes. -/
def quote (s : String) : List Char := '"' :: (escape s ++ ['"'])

/-! ## Reading -/

/-- What the reader of a string is in the middle of. -/
inductive TextMode where
  /-- Between characters. -/
  | plain
  /-- After a backslash. -/
  | escape
  /-- In a code unit: digits to come, value so far, and the first half of the pair that the unit has
  to complete, if there is one. -/
  | unit (left value : Nat) (lead : Option Nat)
  /-- After the first half of a pair: a backslash has to follow. -/
  | lead (half : Nat)
  /-- After the first half of a pair and a backslash. -/
  | leadEscape (half : Nat)
  deriving DecidableEq

/-- The value of a hexadecimal digit. -/
def hexValue? (b : UInt8) : Option Nat :=
  if 0x30 ≤ b ∧ b ≤ 0x39 then some (b.toNat - 0x30)
  else if 0x41 ≤ b ∧ b ≤ 0x46 then some (b.toNat - 0x41 + 10)
  else if 0x61 ≤ b ∧ b ≤ 0x66 then some (b.toNat - 0x61 + 10)
  else none

/-- The byte that a simple escape stands for. -/
def simpleEscape? (b : UInt8) : Option UInt8 :=
  match Char.ofUInt8 b with
  | '"' => some b
  | '\\' => some b
  | '/' => some b
  | 'b' => some 0x08
  | 'f' => some 0x0C
  | 'n' => some 0x0A
  | 'r' => some 0x0D
  | 't' => some 0x09
  | _ => none

/-- The reader of a string: the bytes spelled so far, last first, and what it is amid. -/
structure TextReader where
  /-- Bytes spelled so far, last first. -/
  out : Bytes
  /-- The unfinished escape. -/
  mode : TextMode
  deriving DecidableEq

namespace TextReader

/-- Spells a character. -/
def spell (out : Bytes) (code : Nat) : TextReader :=
  ⟨(String.utf8EncodeChar (Char.ofNat code)).reverse ++ out, .plain⟩

/-- A finished code unit.  A first half waits for the second; a second half needs a first. -/
def finishUnit (out : Bytes) (value : Nat) : Option Nat → Option TextReader
  | none =>
    if 0xD800 ≤ value ∧ value < 0xDC00 then some ⟨out, .lead value⟩
    else if 0xDC00 ≤ value ∧ value < 0xE000 then none
    else some (spell out value)
  | some half =>
    if 0xDC00 ≤ value ∧ value < 0xE000 then
      some (spell out (0x10000 + (half - 0xD800) * 0x400 + (value - 0xDC00)))
    else none

/-- One byte. -/
def step (r : TextReader) (b : UInt8) : Option TextReader :=
  match r.mode with
  | .plain =>
    if Char.ofUInt8 b = '\\' then some ⟨r.out, .escape⟩ else some ⟨b :: r.out, .plain⟩
  | .escape =>
    if Char.ofUInt8 b = 'u' then some ⟨r.out, .unit 4 0 none⟩
    else (simpleEscape? b).map fun c => ⟨c :: r.out, .plain⟩
  | .unit left value lead =>
    match hexValue? b with
    | none => none
    | some d =>
      if left ≤ 1 then finishUnit r.out (16 * value + d) lead
      else some ⟨r.out, .unit (left - 1) (16 * value + d) lead⟩
  | .lead half => if Char.ofUInt8 b = '\\' then some ⟨r.out, .leadEscape half⟩ else none
  | .leadEscape half => if Char.ofUInt8 b = 'u' then some ⟨r.out, .unit 4 0 (some half)⟩ else none

end TextReader

/-- The bytes that a written string spells. -/
def unescape? (written : Bytes) : Option Bytes :=
  match written.foldlM TextReader.step ⟨[], .plain⟩ with
  | some ⟨out, .plain⟩ => some out.reverse
  | _ => none

/-- The text that a written string spells, which has to be well-formed UTF-8. -/
def decodeText? (written : Bytes) : Option String := (unescape? written).bind Bytes.toText?

end WasmForge.Json

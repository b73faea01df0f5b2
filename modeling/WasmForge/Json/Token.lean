import WasmForge.Binary.Bytes

/-!
# Tokens of JSON text

A machine reads JSON text byte by byte and collects tokens.  It checks the form of each token: the
grammar of numbers, well-formed escapes, no bare control characters in strings.  The content of a
string is kept as it stands between the quotes, with its escapes; what it spells is for whoever
needs it to find out.

Whitespace is space, tab, line feed and carriage return.
-/

namespace WasmForge.Json

/-- A token. -/
inductive Token where
  /-- An opening bracket. -/
  | openArray
  /-- A closing bracket. -/
  | closeArray
  /-- An opening brace. -/
  | openObject
  /-- A closing brace. -/
  | closeObject
  /-- A comma. -/
  | comma
  /-- A colon. -/
  | colon
  /-- The word for no value. -/
  | null
  /-- A truth value. -/
  | bool (value : Bool)
  /-- A number, as written. -/
  | number (written : Bytes)
  /-- A string, as written between its quotes. -/
  | text (written : Bytes)
  deriving DecidableEq

/-! ## Numbers -/

/-- How far a number has been read. -/
inductive NumberPhase where
  /-- After the sign. -/
  | sign
  /-- After an integer part of zero. -/
  | zero
  /-- In any other integer part. -/
  | whole
  /-- After the point. -/
  | point
  /-- In the fraction. -/
  | fraction
  /-- After the exponent mark. -/
  | mark
  /-- After the sign of the exponent. -/
  | markSign
  /-- In the exponent. -/
  | exponent
  deriving DecidableEq

/-- Is the byte a decimal digit? -/
def isDigit (b : UInt8) : Bool := 0x30 ≤ b && b ≤ 0x39

namespace NumberPhase

/-- Can a number end here? -/
def isComplete : NumberPhase → Bool
  | zero | whole | fraction | exponent => true
  | sign | point | mark | markSign => false

/-- The phase after a byte that starts a number. -/
def first (b : UInt8) : Option NumberPhase :=
  match Char.ofUInt8 b with
  | '-' => some .sign
  | '0' => some .zero
  | _ => if isDigit b then some .whole else none

/-- The phase after a byte after the integer part. -/
def afterWhole (b : UInt8) : Option NumberPhase :=
  match Char.ofUInt8 b with
  | '.' => some .point
  | 'e' => some .mark
  | 'E' => some .mark
  | _ => none

/-- The phase after one more byte, if the byte still belongs to the number. -/
def next (b : UInt8) : NumberPhase → Option NumberPhase
  | sign => if Char.ofUInt8 b = '0' then some .zero else if isDigit b then some .whole else none
  | zero => afterWhole b
  | whole => if isDigit b then some .whole else afterWhole b
  | point => if isDigit b then some .fraction else none
  | fraction =>
    if isDigit b then some .fraction
    else if Char.ofUInt8 b = 'e' ∨ Char.ofUInt8 b = 'E' then some .mark
    else none
  | mark =>
    if isDigit b then some .exponent
    else if Char.ofUInt8 b = '+' ∨ Char.ofUInt8 b = '-' then some .markSign
    else none
  | markSign => if isDigit b then some .exponent else none
  | exponent => if isDigit b then some .exponent else none

end NumberPhase

/-! ## The machine -/

/-- What the machine is in the middle of.  Bytes read so far are kept last first. -/
inductive LexMode where
  /-- Between tokens. -/
  | idle
  /-- In a word, with these letters to come. -/
  | word (rest : Bytes) (token : Token)
  /-- In a number. -/
  | number (phase : NumberPhase) (read : Bytes)
  /-- In a string. -/
  | text (read : Bytes)
  /-- In a string, after a backslash. -/
  | escape (read : Bytes)
  /-- In a string, with this many hexadecimal digits to come. -/
  | hex (left : Nat) (read : Bytes)
  deriving DecidableEq

/-- The machine: the tokens read so far, last first, and what it is in the middle of. -/
structure Lexer where
  /-- Finished tokens, last first. -/
  tokens : List Token
  /-- The unfinished token. -/
  mode : LexMode
  deriving DecidableEq

/-- Is the byte a hexadecimal digit? -/
def isHexDigit (b : UInt8) : Bool :=
  isDigit b || (0x41 ≤ b && b ≤ 0x46) || (0x61 ≤ b && b ≤ 0x66)

/-- May the byte follow a backslash, other than to start a code unit? -/
def isSimpleEscape (b : UInt8) : Bool := "\"\\/bfnrt".toList.contains (Char.ofUInt8 b)

namespace Lexer

/-- Nothing read. -/
def start : Lexer := ⟨[], .idle⟩

/-- A byte between tokens. -/
def between (tokens : List Token) (b : UInt8) : Option Lexer :=
  match Char.ofUInt8 b with
  | ' ' => some ⟨tokens, .idle⟩
  | '\t' => some ⟨tokens, .idle⟩
  | '\n' => some ⟨tokens, .idle⟩
  | '\r' => some ⟨tokens, .idle⟩
  | '[' => some ⟨.openArray :: tokens, .idle⟩
  | ']' => some ⟨.closeArray :: tokens, .idle⟩
  | '\x7b' => some ⟨.openObject :: tokens, .idle⟩
  | '\x7d' => some ⟨.closeObject :: tokens, .idle⟩
  | ',' => some ⟨.comma :: tokens, .idle⟩
  | ':' => some ⟨.colon :: tokens, .idle⟩
  | '"' => some ⟨tokens, .text []⟩
  | 'n' => some ⟨tokens, .word (Bytes.ofText "ull") .null⟩
  | 't' => some ⟨tokens, .word (Bytes.ofText "rue") (.bool true)⟩
  | 'f' => some ⟨tokens, .word (Bytes.ofText "alse") (.bool false)⟩
  | _ => (NumberPhase.first b).map fun phase => ⟨tokens, .number phase [b]⟩

/-- One byte. -/
def step (l : Lexer) (b : UInt8) : Option Lexer :=
  match l.mode with
  | .idle => between l.tokens b
  | .word [] _ => none
  | .word [c] token => if b = c then some ⟨token :: l.tokens, .idle⟩ else none
  | .word (c :: rest) token => if b = c then some ⟨l.tokens, .word rest token⟩ else none
  | .number phase read =>
    match phase.next b with
    | some phase => some ⟨l.tokens, .number phase (b :: read)⟩
    | none => if phase.isComplete then between (.number read.reverse :: l.tokens) b else none
  | .text read =>
    if b < 0x20 then none
    else match Char.ofUInt8 b with
      | '"' => some ⟨.text read.reverse :: l.tokens, .idle⟩
      | '\\' => some ⟨l.tokens, .escape (b :: read)⟩
      | _ => some ⟨l.tokens, .text (b :: read)⟩
  | .escape read =>
    if Char.ofUInt8 b = 'u' then some ⟨l.tokens, .hex 4 (b :: read)⟩
    else if isSimpleEscape b then some ⟨l.tokens, .text (b :: read)⟩
    else none
  | .hex left read =>
    if isHexDigit b then
      if left ≤ 1 then some ⟨l.tokens, .text (b :: read)⟩
      else some ⟨l.tokens, .hex (left - 1) (b :: read)⟩
    else none

/-- The tokens, once all bytes are read. -/
def finish (l : Lexer) : Option (List Token) :=
  match l.mode with
  | .idle => some l.tokens.reverse
  | .number phase read =>
    if phase.isComplete then some (.number read.reverse :: l.tokens).reverse else none
  | _ => none

end Lexer

/-- The tokens of a text. -/
def tokens? (bs : Bytes) : Option (List Token) :=
  (bs.foldlM Lexer.step Lexer.start).bind Lexer.finish

end WasmForge.Json

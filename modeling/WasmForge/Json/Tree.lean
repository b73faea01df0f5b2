import WasmForge.Json.Text

/-!
# JSON trees

A value is a tree.  How texts are represented is a parameter: the reader keeps them as written, the
writer takes them as they are.

* `Tree.parse?` reads a text: a machine takes one token after the other and keeps the containers
  that are still open in a list, so nesting has no limit.
* `Tree.render` writes a value, with no space between tokens.
-/

namespace WasmForge.Json

/-- A JSON value with texts of type `τ`. -/
inductive Tree (τ : Type) where
  /-- No value. -/
  | null
  /-- A truth value. -/
  | bool (value : Bool)
  /-- A number, as written. -/
  | number (written : Bytes)
  /-- A string. -/
  | text (content : τ)
  /-- A sequence of values. -/
  | array (items : List (Tree τ))
  /-- Named values, in order; names may repeat. -/
  | object (members : List (τ × Tree τ))

namespace Tree

/-! ## Reading -/

/-- A container that is still open.  What it holds so far is kept last first. -/
inductive Frame where
  /-- An array. -/
  | array (items : List (Tree Bytes))
  /-- An object between members. -/
  | object (members : List (Bytes × Tree Bytes))
  /-- An object whose last member still needs its value. -/
  | member (members : List (Bytes × Tree Bytes)) (key : Bytes)

/-- What may come next. -/
inductive Awaiting where
  /-- A value. -/
  | value
  /-- A value, or the end of an array that is still empty. -/
  | firstItem
  /-- A key. -/
  | key
  /-- A key, or the end of an object that is still empty. -/
  | firstKey
  /-- The colon after a key. -/
  | colon
  /-- A comma, or the end of the innermost container. -/
  | separator
  /-- Nothing: the value is complete. -/
  | nothing (result : Tree Bytes)

/-- The reader: the open containers, innermost first, and what may come next. -/
structure Builder where
  /-- Open containers, innermost first. -/
  frames : List Frame
  /-- What may come next. -/
  awaiting : Awaiting

namespace Builder

/-- Nothing read. -/
def start : Builder := ⟨[], .value⟩

/-- A value is complete. -/
def complete (v : Tree Bytes) : List Frame → Option Builder
  | [] => some ⟨[], .nothing v⟩
  | .array items :: outer => some ⟨.array (v :: items) :: outer, .separator⟩
  | .member members key :: outer => some ⟨.object ((key, v) :: members) :: outer, .separator⟩
  | .object _ :: _ => none

/-- A token where a value has to start. -/
def beginValue (frames : List Frame) : Token → Option Builder
  | .null => complete .null frames
  | .bool b => complete (.bool b) frames
  | .number w => complete (.number w) frames
  | .text w => complete (.text w) frames
  | .openArray => some ⟨.array [] :: frames, .firstItem⟩
  | .openObject => some ⟨.object [] :: frames, .firstKey⟩
  | _ => none

/-- A token where the innermost container goes on or ends. -/
def separate : List Frame → Token → Option Builder
  | .array items :: outer, .comma => some ⟨.array items :: outer, .value⟩
  | .array items :: outer, .closeArray => complete (.array items.reverse) outer
  | .object members :: outer, .comma => some ⟨.object members :: outer, .key⟩
  | .object members :: outer, .closeObject => complete (.object members.reverse) outer
  | _, _ => none

/-- A token where a key has to stand. -/
def beginMember : List Frame → Token → Option Builder
  | .object members :: outer, .text key => some ⟨.member members key :: outer, .colon⟩
  | _, _ => none

/-- One token. -/
def step (b : Builder) (t : Token) : Option Builder :=
  match b.awaiting with
  | .value => beginValue b.frames t
  | .firstItem => if t = .closeArray then separate b.frames t else beginValue b.frames t
  | .key => beginMember b.frames t
  | .firstKey => if t = .closeObject then separate b.frames t else beginMember b.frames t
  | .colon => if t = .colon then some ⟨b.frames, .value⟩ else none
  | .separator => separate b.frames t
  | .nothing _ => none

end Builder

/-- The value that tokens make up. -/
def ofTokens? (ts : List Token) : Option (Tree Bytes) :=
  match ts.foldlM Builder.step Builder.start with
  | some ⟨_, .nothing v⟩ => some v
  | _ => none

/-- The value that a text describes. -/
def parse? (bs : Bytes) : Option (Tree Bytes) := (tokens? bs).bind ofTokens?

/-! ## Writing -/

/-- The written form of a natural number. -/
def ofNat {τ : Type} (n : Nat) : Tree τ :=
  .number (Bytes.ofText (String.ofList (Nat.toDigits 10 n)))

mutual

/-- The characters of a value. -/
def chars : Tree String → List Char
  | .null => "null".toList
  | .bool true => "true".toList
  | .bool false => "false".toList
  | .number written => written.map Char.ofUInt8
  | .text content => quote content
  | .array items => '[' :: (itemChars items ++ [']'])
  | .object members => '\x7b' :: (memberChars members ++ ['\x7d'])

/-- The characters of the items of an array. -/
def itemChars : List (Tree String) → List Char
  | [] => []
  | [v] => v.chars
  | v :: rest => v.chars ++ ',' :: itemChars rest

/-- The characters of the members of an object. -/
def memberChars : List (String × Tree String) → List Char
  | [] => []
  | [(k, v)] => quote k ++ ':' :: v.chars
  | (k, v) :: rest => quote k ++ ':' :: v.chars ++ ',' :: memberChars rest

end

/-- The written form of a value. -/
def render (v : Tree String) : String := String.ofList v.chars

end Tree

end WasmForge.Json

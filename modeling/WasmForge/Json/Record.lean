import WasmForge.Json.Tree

/-!
# Reading records

How the parts of a description are read from a JSON value.  A record is an object with its fields in
any order, or an array with its fields in their own order.  Unknown fields of an object are skipped;
a field that comes twice is refused.  A choice between words is the word as a string, or an object
that gives the word the value null.
-/

namespace WasmForge.Json.Tree

/-- A text. -/
def text? : Tree Bytes → Option String
  | .text written => decodeText? written
  | _ => none

/-- The number that digits spell. -/
def ofDigits (digits : Bytes) : Nat := digits.foldl (fun n b => 10 * n + (b.toNat - 0x30)) 0

/-- An unsigned 32-bit number, written with digits only. -/
def u32? : Tree Bytes → Option UInt32
  | .number written =>
    if written.all isDigit ∧ ofDigits written < UInt32.size then some (ofDigits written).toUInt32
    else none
  | _ => none

/-- A list of things. -/
def list? {α : Type} (item : Tree Bytes → Option α) : Tree Bytes → Option (List α)
  | .array items => items.mapM item
  | _ => none

/-- A thing, or null for its absence. -/
def optional? {α : Type} (item : Tree Bytes → Option α) : Tree Bytes → Option (Option α)
  | .null => some none
  | v => (item v).map some

/-- A word of a choice. -/
def word? : Tree Bytes → Option String
  | .text written => decodeText? written
  | .object [(key, .null)] => decodeText? key
  | _ => none

/-! ## Fields -/

/-- The fields of a record, each under its name, where present. -/
abbrev Fields : Type := List (String × Tree Bytes)

/-- The fields of an object whose names are known; one that comes twice is refused. -/
def knownFields (names : List String) : List (Bytes × Tree Bytes) → Option Fields
  | [] => some []
  | (key, v) :: rest => do
    let name ← decodeText? key
    let fields ← knownFields names rest
    if names.contains name then
      if (fields.lookup name).isSome then none else some ((name, v) :: fields)
    else some fields

/-- The fields of a record.  As an array it needs at least the first `required` of them, and no more
than there are names. -/
def fields? (names : List String) (required : Nat) : Tree Bytes → Option Fields
  | .object members => knownFields names members
  | .array items =>
    if required ≤ items.length ∧ items.length ≤ names.length then some (names.zip items) else none
  | _ => none

/-- A field that has to be present. -/
def Fields.required {α : Type} (fields : Fields) (name : String) (item : Tree Bytes → Option α) :
    Option α :=
  (fields.lookup name).bind item

/-- A field that is absent, null or there. -/
def Fields.optional {α : Type} (fields : Fields) (name : String) (item : Tree Bytes → Option α) :
    Option (Option α) :=
  match fields.lookup name with
  | some v => optional? item v
  | none => some none

end WasmForge.Json.Tree

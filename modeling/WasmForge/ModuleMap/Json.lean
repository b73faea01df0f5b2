import WasmForge.ModuleMap.Basic
import WasmForge.Options.Json

/-!
# Module maps as JSON

A map has the fields `functions` and `memory`; a function has `index`, `name`, `kind`, `params`,
`result` and, if it has host code, `host_code`; a parameter has `ty` and `name`.  Written text has
no space between tokens, and fields in this order.
-/

namespace WasmForge

/-! ## Words -/

namespace ValueType

/-- The word for a type. -/
def word : ValueType → String
  | void => "void"
  | int32 => "int32"
  | float32 => "float32"

/-- The type that a word stands for. -/
def ofWord? : String → Option ValueType
  | "void" => some void
  | "int32" => some int32
  | "float32" => some float32
  | _ => none

@[simp] theorem ofWord?_word (t : ValueType) : ofWord? t.word = some t := by
  cases t <;> rfl

end ValueType

namespace EntryKind

/-- The word for a kind. -/
def word : EntryKind → String
  | imported => "import"
  | internal => "internal"
  | exported => "export"

/-- The kind that a word stands for. -/
def ofWord? : String → Option EntryKind
  | "import" => some imported
  | "internal" => some internal
  | "export" => some exported
  | _ => none

@[simp] theorem ofWord?_word (k : EntryKind) : ofWord? k.word = some k := by
  cases k <;> rfl

end EntryKind

/-! ## Writing -/

/-- A parameter as a value. -/
def Param.toJson (p : Param) : Json.Tree String :=
  .object [("ty", .text p.type.word), ("name", .text p.name)]

/-- An entry as a value. -/
def MapEntry.toJson (e : MapEntry) : Json.Tree String :=
  .object <|
    [("index", .ofNat e.index.toNat), ("name", .text e.name), ("kind", .text e.kind.word),
      ("params", .array (e.params.map Param.toJson)), ("result", .text e.result.word)]
    ++ e.hostCode.toList.map fun code => ("host_code", .text code)

namespace ModuleMap

/-- A map as a value. -/
def toJson (m : ModuleMap) : Json.Tree String :=
  .object [("functions", .array (m.functions.map MapEntry.toJson)),
    ("memory", m.memory.elim .null Limits.toJson)]

/-- A map as a text. -/
def toText (m : ModuleMap) : String := m.toJson.render

end ModuleMap

/-! ## Reading -/

/-- The parameter that a value describes. -/
def Param.ofJson? (v : Json.Tree Bytes) : Option Param := do
  let fields ← v.fields? ["ty", "name"] 2
  let type ← fields.required "ty" (·.word? >>= ValueType.ofWord?)
  return ⟨type, ← fields.required "name" (·.text?)⟩

/-- The entry that a value describes. -/
def MapEntry.ofJson? (v : Json.Tree Bytes) : Option MapEntry := do
  let fields ← v.fields? ["index", "name", "kind", "params", "result", "host_code"] 5
  return {
    index := ← fields.required "index" (·.u32?)
    name := ← fields.required "name" (·.text?)
    kind := ← fields.required "kind" (·.word? >>= EntryKind.ofWord?)
    params := ← fields.required "params" (·.list? Param.ofJson?)
    result := ← fields.required "result" (·.word? >>= ValueType.ofWord?)
    hostCode := ← fields.optional "host_code" (·.text?) }

namespace ModuleMap

/-- The map that a value describes. -/
def ofJson? (v : Json.Tree Bytes) : Option ModuleMap := do
  let fields ← v.fields? ["functions", "memory"] 2
  return ⟨← fields.required "functions" (·.list? MapEntry.ofJson?),
    ← fields.optional "memory" Limits.ofJson?⟩

/-- Reads a map from the bytes of a text. -/
def ofBytes? (bs : Bytes) : Option ModuleMap := (Json.Tree.parse? bs).bind ofJson?

end ModuleMap

end WasmForge

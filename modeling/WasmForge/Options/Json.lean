import WasmForge.Json.Record
import WasmForge.Options.Basic

/-!
# Options as JSON

Limits have the fields `minimum` and `maximum`; options have the field `memory`.  All but the
minimum may be missing or null.
-/

namespace WasmForge

/-- The limits that a value describes. -/
def Limits.ofJson? (v : Json.Tree Bytes) : Option Limits := do
  let fields ← v.fields? ["minimum", "maximum"] 2
  return ⟨← fields.required "minimum" (·.u32?), ← fields.optional "maximum" (·.u32?)⟩

/-- The limits as a value. -/
def Limits.toJson (l : Limits) : Json.Tree String :=
  .object [("minimum", .ofNat l.minimum.toNat),
    ("maximum", l.maximum.elim .null (fun max => .ofNat max.toNat))]

namespace EmitOptions

/-- The options that a value describes. -/
def ofJson? (v : Json.Tree Bytes) : Option EmitOptions := do
  let fields ← v.fields? ["memory"] 0
  return ⟨← fields.optional "memory" Limits.ofJson?⟩

/-- Reads options from a text and checks them. -/
def ofText (text : String) : Except OptionsError EmitOptions :=
  match (Json.Tree.parse? (Bytes.ofText text)).bind ofJson? with
  | some options => options.validate.map fun () => options
  | none => .error .unreadable

end EmitOptions

end WasmForge

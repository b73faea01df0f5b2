import WasmForge.Host.ParamNames
import WasmForge.ModuleMap.Json

/-!
# Loader scripts

A loader script is a JavaScript module that holds the bytes of a WebAssembly module, builds the
objects that it imports, and instantiates it.  The host code of an import is pasted as it stands.
With an entry, the script also has a function that instantiates the module and calls that export.
-/

namespace WasmForge

/-- Why there is no script. -/
inductive ScriptError where
  /-- Two imported things would have the same key. -/
  | conflictingImport (name : String)
  /-- The entry is no export. -/
  | missingExport (name : String)
  deriving DecidableEq

/-- The wording of an error. -/
def ScriptError.message : ScriptError → String
  | conflictingImport name => s!"conflicting import `{name}` in module map"
  | missingExport name => s!"module has no export `{name}`"

/-- What a script is made from. -/
structure LoaderScript where
  /-- The module. -/
  wasm : Bytes
  /-- The map of the module. -/
  map : ModuleMap
  /-- The export to call. -/
  entry : Option String := none

namespace LoaderScript

/-! ## Text -/

/-- The written form of a natural number. -/
def decimal (n : Nat) : String := String.ofList (Nat.toDigits 10 n)

/-- A list of bytes as an array literal. -/
def byteArray (bs : Bytes) : String := (Json.Tree.array (bs.map (.ofNat ·.toNat))).render

/-- Memory limits as an object literal. -/
def memoryDescriptor (l : Limits) : String :=
  match l.maximum with
  | some max =>
    "\x7b initial: " ++ decimal l.minimum.toNat ++ ", maximum: " ++ decimal max.toNat ++ " \x7d"
  | none => "\x7b initial: " ++ decimal l.minimum.toNat ++ " \x7d"

/-- Host code, with a line end after it if it has none. -/
def hostBody (code : String) : String :=
  if code.isEmpty || code.toList.getLast? == some '\n' then code else code ++ "\n"

/-- The function for an import. -/
def importFunction (e : MapEntry) : String :=
  "  " ++ String.ofList (Json.quote e.name) ++ ": function ("
    ++ ", ".intercalate (ParamNames.chooseAll (e.params.map (·.name))) ++ ") \x7b\n"
    ++ hostBody (e.hostCode.getD "") ++ "  \x7d,\n"

/-- The properties of the object with everything that the module imports: their keys, and their
text.  The memory comes first. -/
def properties (m : ModuleMap) : List (String × String) :=
  (m.memory.toList.map fun _ => (memoryField, "  memory,\n"))
    ++ m.imports.map fun e => (e.name, importFunction e)

/-- The keys of the imported things. -/
def keys (m : ModuleMap) : List String := (properties m).map (·.1)

/-- The definition of the memory. -/
def memoryPart (memory : Option Limits) : String :=
  match memory with
  | some l => "const memory = new WebAssembly.Memory(" ++ memoryDescriptor l ++ ");\n"
  | none => ""

/-- The object with everything that the module imports. -/
def environmentPart (m : ModuleMap) : String :=
  "\nconst env = \x7b\n" ++ String.join ((properties m).map (·.2)) ++ "\x7d;\n\n"

/-- The function that instantiates the module. -/
def instantiatePart : String :=
  "export async function instantiate() \x7b\n"
    ++ "  const \x7b instance \x7d = await WebAssembly.instantiate(bytes, \x7b env \x7d);\n"
    ++ "  return instance;\n"
    ++ "\x7d\n"

/-- The function that calls the entry. -/
def runPart (entry : Option String) : String :=
  match entry with
  | some name =>
    "\nexport async function run() \x7b\n"
      ++ "  const instance = await instantiate();\n"
      ++ "  return instance.exports[" ++ String.ofList (Json.quote name) ++ "]();\n"
      ++ "\x7d\n"
  | none => ""

/-- The text of the script. -/
def text (s : LoaderScript) : String :=
  "// Generated by wasmling. Do not edit.\n\n"
    ++ "const bytes = new Uint8Array(" ++ byteArray s.wasm ++ ");\n"
    ++ memoryPart s.map.memory ++ environmentPart s.map ++ instantiatePart ++ runPart s.entry

/-! ## Checks -/

/-- The first name that is taken already, by one of `taken` or by an earlier name. -/
def firstRepeated (taken : List String) : List String → Option String
  | [] => none
  | name :: rest => if taken.contains name then some name else firstRepeated (name :: taken) rest

/-- The first key that is the key of an earlier property. -/
def conflict? (m : ModuleMap) : Option String := firstRepeated [] (keys m)

/-- The text of the script, if its imports and its entry are as they have to be. -/
def render (s : LoaderScript) : Except ScriptError String :=
  match conflict? s.map with
  | some name => .error (.conflictingImport name)
  | none =>
    match s.entry with
    | some name =>
      if (s.map.findExport name).isSome then .ok s.text else .error (.missingExport name)
    | none => .ok s.text

end LoaderScript

end WasmForge

import WasmForge.Emit.ModuleDraft

/-!
# Module maps

A module map tells a host what it needs to know about a module: the functions with their indices,
parameters and results, the host's code of each import, and the limits of the memory.
-/

namespace WasmForge

/-- Where a function of a module comes from and who can see it. -/
inductive EntryKind where
  /-- Provided by the host. -/
  | imported
  /-- Visible only in the module. -/
  | internal
  /-- Visible to the host. -/
  | exported
  deriving DecidableEq

/-- The kind of a declaration. -/
def Linkage.entryKind : Linkage → EntryKind
  | imported _ => .imported
  | internal => .internal
  | exported => .exported

/-- What a map says about a function. -/
structure MapEntry where
  /-- The function index. -/
  index : UInt32
  /-- The name. -/
  name : String
  /-- The kind. -/
  kind : EntryKind
  /-- The parameters. -/
  params : List Param
  /-- The type of the result. -/
  result : ValueType
  /-- The host's code. -/
  hostCode : Option String
  deriving DecidableEq

/-- A module map. -/
structure ModuleMap where
  /-- The functions. -/
  functions : List MapEntry
  /-- Limits of the imported memory. -/
  memory : Option Limits
  deriving DecidableEq

/-- What a map says about a declaration at a function index. -/
def Declaration.mapEntry (d : Declaration) (index : Nat) : MapEntry :=
  { index := index.toUInt32, name := d.name, kind := d.linkage.entryKind, params := d.params,
    result := d.result, hostCode := d.linkage.hostCode? }

namespace ModuleMap

/-- The map of a program's functions in the order of a numbering. -/
def ofProgram (p : Program) (n : Numbering) (memory : Option Limits) : ModuleMap :=
  let entries := (List.range n.size).zip n.refs |>.filterMap fun (i, f) =>
    (p.get? f).map (·.mapEntry i)
  ⟨entries, memory⟩

/-- The first function with an index. -/
def findByIndex (m : ModuleMap) (index : UInt32) : Option MapEntry :=
  m.functions.find? (·.index == index)

/-- The first export with a name. -/
def findExport (m : ModuleMap) (name : String) : Option MapEntry :=
  m.functions.find? fun e => e.kind == .exported && e.name == name

/-- The functions that the host provides. -/
def imports (m : ModuleMap) : List MapEntry := m.functions.filter (·.kind == .imported)

end ModuleMap

end WasmForge

import Mathlib
import WasmForge.Host.LoaderScript
import WasmForge.Proofs.MapAgreement
import WasmForge.Proofs.ObjectReading

/-!
# Loader scripts of compiled programs

A loader script hands one object to the module, with a property for each thing that the module
imports.  Two properties must not have the same key.  The names of a compiled program's imports are
different already, so its script can always be written, and the keys are the names in the import
section of its module.

* `LoaderScript.IsEnvironment`: the object, word for word, and the keys that a reader finds in it.
* `LoaderScript.Binds`: the script, word for word, with such an object.
* `ModuleMap.FirstClash`: the first import of a map whose key is taken.
* `LoaderScript.binds_imports`: the scripts of compiled programs, and when a map has no script.
-/

namespace WasmForge

namespace LoaderScript

/-! ## Keys in the text -/

/-- Does the code end with a line end, unless there is none? -/
def EndsLine (code : String) : Prop := code = "" ∨ ∃ front, code = front ++ "\n"

/-- The second text is what a script has for the host's code: the code as it stands, and a line end
if it does not end with one. -/
def Pastes (code pasted : String) : Prop :=
  EndsLine code ∧ pasted = code ∨ ¬EndsLine code ∧ pasted = code ++ "\n"

/-- The text is the property for an import: its name in quotes, where a reader of quoted text finds
it, and a function with a parameter for each of its own and the host's code for a body. -/
structure IsFunction (e : MapEntry) (text : String) : Prop where
  /-- The name is read back. -/
  reads : (Json.Tree.parse? (Bytes.ofText (String.ofList (Json.quote e.name)))).bind
    Json.Tree.text? = some e.name
  /-- The text, word for word. -/
  written : ∃ pasted, Pastes (e.hostCode.getD "") pasted ∧
    text = "  " ++ String.ofList (Json.quote e.name) ++ ": function ("
      ++ ", ".intercalate (ParamNames.chooseAll (e.params.map (·.name))) ++ ") \x7b\n"
      ++ pasted ++ "  \x7d,\n"

/-- The text is the object with everything that a module imports, and these are its keys. -/
structure IsEnvironment (m : ModuleMap) (object : String) (keys : List String) : Prop where
  /-- The memory comes first, then the functions. -/
  order : keys = (m.memory.toList.map fun _ => "memory") ++ m.imports.map (·.name)
  /-- The text, word for word. -/
  written : ∃ functions, List.Forall₂ IsFunction m.imports functions ∧
    object = "\x7b\n" ++ (if m.memory.isSome then "  memory,\n" else "") ++ String.join functions
      ++ "\x7d"
  /-- A reader finds these keys and no others, if the code of every import is contained. -/
  read : (∀ e ∈ m.imports, ∃ pasted, Pastes (e.hostCode.getD "") pasted ∧ Contained pasted) →
    readObject? object.toList = some (keys, [])

/-- The text is that of the script, word for word, and the object with the imported things has these
keys, in this order. -/
def Binds (s : LoaderScript) (script : String) (keys : List String) : Prop :=
  ∃ object, IsEnvironment s.map object keys ∧
    script = "// Generated by wasmling. Do not edit.\n\n"
      ++ "const bytes = new Uint8Array("
      ++ ("[" ++ ",".intercalate (s.wasm.map fun b => toString b.toNat) ++ "]") ++ ");\n"
      ++ (match s.map.memory with
        | none => ""
        | some ⟨minimum, none⟩ =>
          "const memory = new WebAssembly.Memory("
            ++ ("\x7b initial: " ++ toString minimum.toNat ++ " \x7d") ++ ");\n"
        | some ⟨minimum, some maximum⟩ =>
          "const memory = new WebAssembly.Memory("
            ++ ("\x7b initial: " ++ toString minimum.toNat ++ ", maximum: "
              ++ toString maximum.toNat ++ " \x7d") ++ ");\n")
      ++ ("\nconst env = " ++ object ++ ";\n\n")
      ++ ("export async function instantiate() \x7b\n"
        ++ "  const \x7b instance \x7d = await WebAssembly.instantiate(bytes, \x7b env \x7d);\n"
        ++ "  return instance;\n"
        ++ "\x7d\n")
      ++ (match s.entry with
        | none => ""
        | some name =>
          "\nexport async function run() \x7b\n"
            ++ "  const instance = await instantiate();\n"
            ++ "  return instance.exports[" ++ String.ofList (Json.quote name) ++ "]();\n"
            ++ "\x7d\n")

theorem endsLine_iff {code : String} :
    EndsLine code ↔ (code.isEmpty || code.toList.getLast? == some '\n') = true := by
  have last : code.toList.getLast? = some '\n' ↔ ∃ front, code = front ++ "\n" := by
    rw [List.getLast?_eq_some_iff]
    constructor
    · rintro ⟨front, split⟩
      exact ⟨String.ofList front, String.toList_inj.1 (by simp [split])⟩
    · rintro ⟨front, rfl⟩
      exact ⟨front.toList, by simp⟩
  rw [Bool.or_eq_true, beq_iff_eq, last, String.isEmpty_iff, EndsLine]

/-- Host code is pasted as it stands, on lines of its own. -/
theorem pastes_iff {code pasted : String} : Pastes code pasted ↔ pasted = hostBody code := by
  unfold Pastes hostBody
  simp only [endsLine_iff]
  split <;> simp_all

theorem isFunction_importFunction (e : MapEntry) : IsFunction e (importFunction e) :=
  ⟨reads_quoted e.name, hostBody (e.hostCode.getD ""), pastes_iff.2 rfl, rfl⟩

/-- The names of an import's parameters, and the host's code if it is contained, do not end the
property. -/
theorem spells_importFunction (e : MapEntry)
    (contained : Contained (hostBody (e.hostCode.getD ""))) :
    Spells e.name (importFunction e).toList := by
  refine spells_function e.name ?_ contained
  refine Contained.intercalate (by decide) fun name mem => ?_
  exact contained_of_isUsable (ParamNames.isUsable_of_mem_chooseFrom mem)

/-- The object in a script. -/
def environment (m : ModuleMap) : String :=
  "\x7b\n" ++ String.join ((properties m).map (·.2)) ++ "\x7d"

theorem isEnvironment (m : ModuleMap) : IsEnvironment m (environment m) (keys m) where
  order := by
    rw [keys, properties, List.map_append, List.map_map, List.map_map]
    rfl
  written := by
    refine ⟨m.imports.map importFunction, ?_, ?_⟩
    · rw [List.forall₂_map_right_iff, List.forall₂_same]
      exact fun e _ => isFunction_importFunction e
    · rw [environment, properties, List.map_append, List.map_map, List.map_map]
      cases m.memory <;> simp [Function.comp_def, ← String.toList_inj]
  read contained := by
    refine readObject?_eq fun q mem => ?_
    rcases List.mem_append.1 mem with mem | mem
    · obtain ⟨l, -, rfl⟩ := List.mem_map.1 mem
      exact spells_memory
    · obtain ⟨e, listed, rfl⟩ := List.mem_map.1 mem
      obtain ⟨_, pastes, ends⟩ := contained e listed
      exact spells_importFunction e (pastes_iff.1 pastes ▸ ends)

theorem environmentPart_eq (m : ModuleMap) :
    environmentPart m = "\nconst env = " ++ environment m ++ ";\n\n" := by
  unfold environmentPart environment
  simp [← String.toList_inj]

/-- The bytes of the module, as an array. -/
theorem byteArray_eq (bs : Bytes) :
    byteArray bs = "[" ++ ",".intercalate (bs.map fun b => toString b.toNat) ++ "]" := by
  have items : Json.Tree.itemChars (bs.map (.ofNat ·.toNat)) =
      (",".intercalate (bs.map fun b => toString b.toNat)).toList := by
    induction bs with
    | nil => rfl
    | cons b bs ih =>
      cases bs with
      | nil => simp [Json.Tree.itemChars, Json.Tree.chars_ofNat]
      | cons next bs =>
        simp only [List.map_cons] at ih ⊢
        rw [Json.Tree.itemChars, ih, Json.Tree.chars_ofNat, String.intercalate_cons_cons]
        · simp
        · simp
  rw [byteArray, Json.Tree.render, Json.Tree.chars, items]
  simp [← String.toList_inj]

/-- The text of a script has the keys of its properties. -/
theorem binds_text (s : LoaderScript) : s.Binds s.text (keys s.map) := by
  refine ⟨environment s.map, isEnvironment s.map, ?_⟩
  unfold text
  -- part by part: strings with literals in them are never unfolded
  refine congrArg₂ (· ++ ·) (congrArg₂ (· ++ ·) (congrArg₂ (· ++ ·) (congrArg₂ (· ++ ·) ?bytes
    ?memory) (environmentPart_eq _)) rfl) ?run
  case bytes => rw [byteArray_eq]
  case memory => rcases s.map.memory with _ | ⟨minimum, _ | maximum⟩ <;> rfl
  case run => cases s.entry <;> rfl

theorem keys_eq (m : ModuleMap) :
    keys m = (m.memory.toList.map fun _ => memoryField) ++ m.imports.map (·.name) :=
  (isEnvironment m).order

/-! ## Taken keys -/

/-- Is the name of the import taken, or is it that of an earlier import? -/
def Repeats (taken : List String) (before : List MapEntry) (e : MapEntry) : Prop :=
  e.name ∈ taken ∨ ∃ x ∈ before, x.name = e.name

theorem repeats_cons {taken : List String} {x : MapEntry} {before : List MapEntry}
    {e : MapEntry} : Repeats (x.name :: taken) before e ↔ Repeats taken (x :: before) e := by
  unfold Repeats
  rw [List.mem_cons, or_assoc, or_left_comm]
  simp [eq_comm]

/-- The first repeated name is that of the first import whose name is taken or repeated. -/
theorem firstRepeated_eq_some {taken : List String} {entries : List MapEntry} {name : String} :
    firstRepeated taken (entries.map (·.name)) = some name ↔
      ∃ before e after, entries = before ++ e :: after ∧ Repeats taken before e ∧ e.name = name ∧
        ∀ x y z, before = x ++ y :: z → ¬ Repeats taken x y := by
  -- the names before an entry move from the entries before it to the names that are taken
  induction entries generalizing taken with
  | nil => simp [firstRepeated]
  | cons entry entries ih =>
    rw [List.map_cons, firstRepeated]
    by_cases found : entry.name ∈ taken
    · rw [if_pos (List.contains_iff_mem.2 found), Option.some.injEq]
      constructor
      · rintro rfl
        exact ⟨[], entry, entries, rfl, .inl found, rfl, by simp⟩
      · rintro ⟨before, e, after, split, -, rfl, none⟩
        cases before with
        | nil =>
          cases split
          rfl
        | cons x before =>
          cases split
          exact absurd (.inl found) (none [] entry before rfl)
    · rw [if_neg (by simpa using found), ih]
      constructor
      · rintro ⟨before, e, after, rfl, repeated, rfl, none⟩
        refine ⟨entry :: before, e, after, rfl, repeats_cons.1 repeated, rfl, ?_⟩
        intro x y z split
        cases x with
        | nil =>
          cases split
          simp [Repeats, found]
        | cons w x =>
          cases split
          rw [← repeats_cons]
          exact none x y z rfl
      · rintro ⟨before, e, after, split, repeated, rfl, none⟩
        cases before with
        | nil =>
          cases split
          simp [Repeats, found] at repeated
        | cons w before =>
          cases split
          refine ⟨before, e, after, rfl, repeats_cons.2 repeated, rfl, ?_⟩
          intro x y z split
          rw [repeats_cons]
          exact none (entry :: x) y z (by rw [split]; rfl)

/-- No name is repeated exactly when they are different from each other and from those that are
taken. -/
theorem firstRepeated_eq_none {taken names : List String} :
    firstRepeated taken names = none ↔ names.Nodup ∧ ∀ name ∈ names, name ∉ taken := by
  induction names generalizing taken with
  | nil => simp [firstRepeated]
  | cons name names ih =>
    rw [firstRepeated]
    by_cases found : name ∈ taken
    · simp [found]
    · rw [if_neg (by simpa using found), ih, List.nodup_cons, List.forall_mem_cons]
      constructor
      · rintro ⟨nodup, fresh⟩
        refine ⟨⟨fun mem => fresh name mem List.mem_cons_self, nodup⟩, found, ?_⟩
        exact fun x mem => (List.not_mem_of_not_mem_cons (fresh x mem))
      · rintro ⟨⟨other, nodup⟩, -, fresh⟩
        refine ⟨nodup, fun x mem => ?_⟩
        rw [List.mem_cons, not_or]
        exact ⟨fun same => other (same ▸ mem), fresh x mem⟩

end LoaderScript

namespace ModuleMap

/-- Does the import repeat the name of an earlier one, or have the name of the memory while there is
a memory? -/
def Clashes (m : ModuleMap) (before : List MapEntry) (e : MapEntry) : Prop :=
  (∃ x ∈ before, x.name = e.name) ∨ m.memory.isSome = true ∧ e.name = "memory"

/-- The name is that of the first import of the map that clashes. -/
def FirstClash (m : ModuleMap) (name : String) : Prop :=
  ∃ before e after, m.imports = before ++ e :: after ∧ m.Clashes before e ∧ e.name = name ∧
    ∀ x y z, before = x ++ y :: z → ¬ m.Clashes x y

end ModuleMap

namespace LoaderScript

theorem conflict?_eq (m : ModuleMap) :
    conflict? m =
      firstRepeated (m.memory.toList.map fun _ => memoryField) (m.imports.map (·.name)) := by
  rw [conflict?, keys_eq]
  cases m.memory <;> rfl

theorem conflict?_eq_some {m : ModuleMap} {name : String} :
    conflict? m = some name ↔ m.FirstClash name := by
  have same : ∀ before e,
      Repeats (m.memory.toList.map fun _ => memoryField) before e ↔ m.Clashes before e := by
    intro before e
    unfold Repeats ModuleMap.Clashes
    rw [or_comm]
    cases m.memory <;> simp [memoryField]
  rw [conflict?_eq, firstRepeated_eq_some]
  simp only [same]
  rfl

/-- A script is refused for a clash exactly when there is one, whatever the entry. -/
theorem render_eq_conflictingImport {s : LoaderScript} {name : String} :
    s.render = .error (.conflictingImport name) ↔ s.map.FirstClash name := by
  rw [← conflict?_eq_some, render]
  cases conflict? s.map with
  | some other => simp
  | none =>
    cases s.entry with
    | none => simp
    | some entry =>
      dsimp only
      split <;> simp

/-- A script without a clash and without an entry is written. -/
theorem render_of_none {s : LoaderScript} (free : conflict? s.map = none) (entry : s.entry = none) :
    s.render = .ok s.text := by
  rw [render, free, entry]

/-- A script without a clash is written if its entry is an export, and is refused otherwise. -/
theorem render_of_some {s : LoaderScript} (free : conflict? s.map = none) {name : String}
    (entry : s.entry = some name) :
    s.render =
      if (s.map.findExport name).isSome then .ok s.text else .error (.missingExport name) := by
  rw [render, free, entry]

end LoaderScript

/-! ## Compiled programs -/

namespace ModuleMap

variable {m : ModuleMap} {memory : Option Limits} {imports defined : List Declaration}

/-- An export is found in a map exactly when one of the declarations is an export of that name. -/
theorem IsOf.isSome_findExport {ds : List Declaration} (isOf : m.IsOf memory ds) {name : String} :
    (m.findExport name).isSome = true ↔ ∃ d ∈ ds, d.isExport = true ∧ d.name = name := by
  rw [findExport, List.find?_isSome, isOf.functions]
  constructor
  · rintro ⟨_, mem, found⟩
    obtain ⟨e, listed, rfl⟩ := List.mem_map.1 mem
    rw [Declaration.kind_mapEntry_exported, Bool.and_eq_true, beq_iff_eq] at found
    exact ⟨e.2, (List.of_mem_zip listed).2, found⟩
  · rintro ⟨d, mem, exported, rfl⟩
    rw [← ModuleDraft.map_snd_zip_range ds, List.mem_map] at mem
    obtain ⟨e, mem, rfl⟩ := mem
    refine ⟨_, List.mem_map_of_mem mem, ?_⟩
    rw [Declaration.kind_mapEntry_exported, exported]
    exact beq_self_eq_true _

theorem IsOf.map_name_imports (isOf : m.IsOf memory (imports ++ defined))
    (imported : ∀ d ∈ imports, d.isImport = true) (others : ∀ d ∈ defined, d.isImport = false) :
    m.imports.map (·.name) = imports.map (·.name) := by
  rw [isOf.imports_eq imported others, List.map_map]
  exact ModuleDraft.map_zip_range (·.name) imports

end ModuleMap

namespace ModuleDraft

variable {memory : Option Limits} {imports defined : List Declaration} {code : List Code}
  (imported : ∀ d ∈ imports, d.isImport = true) (others : ∀ d ∈ defined, d.isImport = false)

include imported others

/-- The names in the import section: those of the imported functions, then that of the memory. -/
theorem map_name_imports :
    (moduleOf memory (imports ++ defined) code).imports.map (·.name) =
      imports.map (·.name) ++ memory.toList.map fun _ => memoryField := by
  rw [imports_moduleOf imported others, List.map_append, List.map_map, List.map_map]
  exact congrArg (· ++ _) (map_zip_range (·.name) imports)

/-- The names of the imported functions, in the order of their indices. -/
theorem map_name_functions :
    ((moduleOf memory (imports ++ defined) code).imports.filter fun i => match i.kind with
      | .func _ => true
      | _ => false).map (·.name) = imports.map (·.name) := by
  rw [imports_moduleOf imported others, List.filter_append,
    List.filter_eq_self.2 (List.forall_mem_map.2 fun _ _ => rfl),
    List.filter_eq_nil_iff.2 (by simp), List.append_nil, List.map_map]
  exact map_zip_range (·.name) imports

end ModuleDraft

namespace Program

open ModuleDraft

variable {p : Program} {n : Numbering} {o : EmitOptions} {imports defined : List Declaration}

/-- What the scripts of a compiled program are like, if `mod` is read from the bytes. -/
structure Loads (p : Program) (o : EmitOptions) (bs : Bytes) (m : ModuleMap) (mod : Module Code)
    (keys : List String) : Prop where
  /-- The memory comes first, then the imported functions, in the order of their indices. -/
  order : keys = (o.memory.toList.map fun _ => "memory") ++
    (mod.imports.filter fun i => match i.kind with
      | .func _ => true
      | _ => false).map (·.name)
  /-- No key comes twice. -/
  distinct : keys.Nodup
  /-- The keys are the names in the import section. -/
  names : keys.Perm (mod.imports.map (·.name))
  /-- There is a script. -/
  script : ∃ script, LoaderScript.render ⟨bs, m, none⟩ = .ok script
  /-- Every script has these keys. -/
  binds : ∀ entry script, LoaderScript.render ⟨bs, m, entry⟩ = .ok script →
    LoaderScript.Binds ⟨bs, m, entry⟩ script keys
  /-- There is a script with an entry exactly when the program has an export of that name. -/
  entry : ∀ e, (∃ script, LoaderScript.render ⟨bs, m, some e⟩ = .ok script) ↔
    ∃ f d, p.get? f = some d ∧ d.isExport = true ∧ d.name = e
  /-- Otherwise the export is missing. -/
  missing : ∀ e, (¬∃ f d, p.get? f = some d ∧ d.isExport = true ∧ d.name = e) →
    LoaderScript.render ⟨bs, m, some e⟩ = .error (.missingExport e)

/-- In a module that is accepted, imports have different names, and none that of the memory. -/
theorem nodup_keys (tidy : p.Tidy) (complete : n.Complete)
    (accepts : Accepts p n o imports defined) :
    ((o.memory.toList.map fun _ => memoryField) ++ imports.map (·.name)).Nodup := by
  have names : (imports.map (·.name)).Nodup := by
    rw [← filter_isImport accepts]
    exact nodup_names complete accepts.refs tidy.imports
  cases memory : o.memory with
  | none => exact names
  | some l =>
    refine List.nodup_cons.2 ⟨?_, names⟩
    intro mem
    obtain ⟨d, mem, name⟩ := List.mem_map.1 mem
    obtain ⟨f, known⟩ := exists_get? accepts.refs (List.mem_append_left defined mem)
    have taken : p.hasImport memoryField = true :=
      hasImport_iff.2 ⟨f, d, known, accepts.imported d mem, name⟩
    rw [accepts.memory (by rw [memory]; rfl)] at taken
    cases taken

/-- The declarations in function order are all declarations of the program. -/
theorem mem_accepted (complete : n.Complete) (accepts : Accepts p n o imports defined)
    {d : Declaration} : d ∈ imports ++ defined ↔ ∃ f, p.get? f = some d := by
  constructor
  · exact exists_get? accepts.refs
  · rintro ⟨f, known⟩
    have listed := mem_refs_of_numberedBy (accepts.numberedBy complete) known
    obtain ⟨e, mem, same⟩ := exists_mem_of_map_get? accepts.refs listed
    cases known.symm.trans same
    exact mem

/-- A map and a module that are made from the same declarations, and the scripts for them. -/
theorem loads_of_accepts (tidy : p.Tidy) (complete : n.Complete)
    (accepts : Accepts p n o imports defined) {m : ModuleMap}
    (isOf : m.IsOf o.memory (imports ++ defined)) (bs : Bytes) (code : List Code) :
    p.Loads o bs m (moduleOf o.memory (imports ++ defined) code) (LoaderScript.keys m) := by
  have keys : LoaderScript.keys m =
      (o.memory.toList.map fun _ => memoryField) ++ imports.map (·.name) := by
    rw [LoaderScript.keys_eq, isOf.memory,
      isOf.map_name_imports accepts.imported accepts.defined]
  have distinct : (LoaderScript.keys m).Nodup := by
    rw [keys]
    exact nodup_keys tidy complete accepts
  have free : LoaderScript.conflict? m = none :=
    LoaderScript.firstRepeated_eq_none.2 ⟨distinct, by simp⟩
  have exported : ∀ e, (m.findExport e).isSome = true ↔
      ∃ f d, p.get? f = some d ∧ d.isExport = true ∧ d.name = e := by
    intro e
    rw [isOf.isSome_findExport]
    simp only [mem_accepted complete accepts]
    constructor
    · rintro ⟨d, ⟨f, known⟩, export_e⟩
      exact ⟨f, d, known, export_e⟩
    · rintro ⟨f, d, known, export_e⟩
      exact ⟨d, ⟨f, known⟩, export_e⟩
  have rendered : ∀ e, LoaderScript.render ⟨bs, m, some e⟩ =
      if (m.findExport e).isSome then .ok (LoaderScript.text ⟨bs, m, some e⟩)
      else .error (.missingExport e) := fun e => LoaderScript.render_of_some free rfl
  refine ⟨?_, distinct, ?_, ⟨_, LoaderScript.render_of_none free rfl⟩, ?_, ?_, ?_⟩
  · rw [keys, map_name_functions accepts.imported accepts.defined]
    rfl
  · rw [keys, map_name_imports accepts.imported accepts.defined]
    exact List.perm_append_comm
  · intro entry script done
    have written : script = LoaderScript.text ⟨bs, m, entry⟩ := by
      cases entry with
      | none => exact (Except.ok.inj ((LoaderScript.render_of_none free rfl).symm.trans done)).symm
      | some e =>
        rw [rendered] at done
        split at done
        · exact (Except.ok.inj done).symm
        · cases done
    rw [written]
    exact LoaderScript.binds_text ⟨bs, m, entry⟩
  · intro e
    rw [← exported, rendered]
    split
    · rename_i found
      simp [found]
    · rename_i absent
      simp [absent]
  · intro e absent
    rw [rendered, if_neg]
    rwa [exported]

end Program

/-- A compiled program has a loader script, which is known word for word; the keys of the object in
it are the names in the import section of its module, and a reader finds no others as long as the
host's code is contained.  With an entry there is a script exactly when that is one of the exports.
A map has no script because of an import exactly when the import is the first that clashes, whatever
the entry. -/
theorem LoaderScript.binds_imports :
    (∀ (p : Program) (o : EmitOptions) (bs : Bytes) (m : ModuleMap), p.Built →
      p.compileWithMap o = .ok (bs, m) →
        ∃ mod keys, Module.ofBytes? bs = some mod ∧ p.Loads o bs m mod keys) ∧
    ∀ (s : LoaderScript) (name : String),
      s.render = .error (.conflictingImport name) ↔ s.map.FirstClash name := by
  refine ⟨?_, fun s name => render_eq_conflictingImport⟩
  intro p o bs m built made
  obtain ⟨compiled, rfl⟩ := Program.compileWithMap_eq_ok.1 made
  obtain ⟨imports, defined, accepts, read, -, -⟩ := Program.emitted_of_compile built.tidy compiled
  have isOf : (ModuleMap.ofProgram p p.usual o.memory).IsOf o.memory (imports ++ defined) :=
    ⟨ModuleMap.functions_ofProgram accepts.refs o.memory, rfl⟩
  exact ⟨_, _, read,
    Program.loads_of_accepts built.tidy (Program.complete_usual p) accepts isOf bs _⟩

/-- The sample with a memory: its one export can be the entry, an import cannot, and a reader finds
the memory and the import in the object.  A map in which a function has the name of the memory is
refused for that, although its entry is missing as well. -/
theorem LoaderScript.binds_imports_sample :
    (∃ bs m mod keys, Program.sample.compileWithMap ⟨some ⟨1, some 2⟩⟩ = .ok (bs, m) ∧
      Module.ofBytes? bs = some mod ∧
      Program.sample.Loads ⟨some ⟨1, some 2⟩⟩ bs m mod keys ∧
      (∃ script object, render ⟨bs, m, some "run"⟩ = .ok script ∧ IsEnvironment m object keys ∧
        readObject? object.toList = some (["memory", "log"], [])) ∧
      render ⟨bs, m, some "log"⟩ = .error (.missingExport "log")) ∧
    (let host (name : String) : MapEntry := ⟨0, name, .imported, [], .void, some ""⟩
     render ⟨[], ⟨[host "log", host "memory", host "log"], some ⟨1, none⟩⟩, some "run"⟩ =
       .error (.conflictingImport "memory")) := by
  obtain ⟨compiled, refused⟩ := binds_imports
  constructor
  · obtain ⟨⟨bs, m⟩, made⟩ :
        ∃ made, Program.sample.compileWithMap ⟨some ⟨1, some 2⟩⟩ = .ok made :=
      exists_eq_ok_of_toBool (by decide +kernel)
    obtain ⟨mod, keys, read, loads⟩ := compiled _ _ bs m Program.built_sample made
    refine ⟨bs, m, mod, keys, made, read, loads, ?_, ?_⟩
    · obtain ⟨script, rendered⟩ := (loads.entry "run").2 ⟨⟨7, 0⟩, _, rfl, rfl, rfl⟩
      obtain ⟨object, environment, -⟩ := loads.binds _ _ rendered
      refine ⟨script, object, rendered, environment, ?_⟩
      obtain ⟨-, rfl⟩ := Program.compileWithMap_eq_ok.1 made
      have names : LoaderScript.keys (ModuleMap.ofProgram Program.sample Program.sample.usual
          (some ⟨1, some 2⟩)) = ["memory", "log"] := by decide +kernel
      have contained : ∀ e ∈ (ModuleMap.ofProgram Program.sample Program.sample.usual
          (some ⟨1, some 2⟩)).imports, Contained (hostBody (e.hostCode.getD "")) := by
        decide +kernel
      obtain rfl : keys = ["memory", "log"] :=
        environment.order.trans ((keys_eq _).symm.trans names)
      exact environment.read fun e mem => ⟨_, pastes_iff.2 rfl, contained e mem⟩
    · refine loads.missing "log" ?_
      rintro ⟨f, d, known, exported, name⟩
      have other := Program.forall_of_all (fun _ d => !(d.isExport && d.name == "log"))
        (by decide +kernel) f d known
      simp [exported, name] at other
  · intro host
    refine (refused _ _).2 ⟨[host "log"], host "memory", [host "log"], rfl, ?_, rfl, ?_⟩
    · exact .inr ⟨rfl, rfl⟩
    · intro x y z split
      cases x with
      | nil =>
        cases split
        simp [ModuleMap.Clashes, host]
      | cons w x => simp at split

end WasmForge

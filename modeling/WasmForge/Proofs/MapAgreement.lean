import Mathlib
import WasmForge.Proofs.Acceptance

/-!
# A map describes its module

The map of a compiled program and the sections of its module are made by different passes over the
declarations.  They agree: reading the module again, every function is found in the map with its
index and type, the imports, exports and the memory are those of the map, and nothing is in one of
them that is not in the other.

* `ModuleMap.Describes`: agreement of a map and a module.
* `ModuleMap.functions_ofProgram`: the entries of a map, from the declarations in function order.
* `Program.map_describes`: the map of a compiled program describes the module.
-/

namespace WasmForge

/-- The map says of a module what is in it, and no more. -/
structure ModuleMap.Describes (m : ModuleMap) (mod : Module Code) : Prop where
  /-- One entry for each function, in the order of their indices. -/
  indices : m.functions.map (·.index.toNat) = List.range (mod.count .func)
  /-- The parameters and the result of an entry are those of the type of the function. -/
  types : ∀ (i : Nat) (e : MapEntry), m.functions[i]? = some e →
    mod.functionTypeIndices[i]? = some i ∧
      ∃ t, mod.types[i]? = some t ∧ e.params.map (·.type.valType?) = t.params.map some ∧
        e.result.valType?.toList = t.results
  /-- Functions are found by their indices. -/
  byIndex : ∀ i, m.findByIndex i = m.functions[i.toNat]?
  /-- The imported functions, by their names and in order. -/
  imports : (mod.imports.filter fun i => match i.kind with
      | .func _ => true
      | _ => false) = m.imports.map fun e => ⟨"env", e.name, .func e.index.toNat⟩
  /-- The imports, and no other entries, have code of the host. -/
  hostCode : m.functions.filter (·.hostCode.isSome) = m.imports
  /-- The exports are functions. -/
  exportKinds : ∀ x ∈ mod.exports, x.kind = .func
  /-- Exports are found by their names. -/
  exports : ∀ s, (m.findExport s).map (·.index.toNat) =
    (mod.exports.find? (·.name == s)).map (·.index)
  /-- The memory. -/
  memory : (mod.imports.filterMap fun i => match i.kind with
      | .memory extent => some extent
      | _ => none) = m.memory.toList.map .narrow

/-! ## Entries -/

namespace Declaration

variable (d : Declaration) (i : Nat)

theorem kind_mapEntry_imported : ((d.mapEntry i).kind == .imported) = d.isImport := by
  unfold mapEntry isImport
  cases d.linkage <;> rfl

theorem kind_mapEntry_exported : ((d.mapEntry i).kind == .exported) = d.isExport := by
  unfold mapEntry isExport
  cases d.linkage <;> rfl

theorem isSome_hostCode_mapEntry : (d.mapEntry i).hostCode.isSome = d.isImport := by
  unfold mapEntry isImport
  cases d.linkage <;> rfl

variable {i}

theorem index_mapEntry (small : i < 2 ^ 32) : (d.mapEntry i).index.toNat = i := by
  simpa [mapEntry] using small

end Declaration

namespace ModuleMap

variable {p : Program} {n : Numbering} {ds : List Declaration}

/-- The entries of a map are made from the declarations in function order. -/
theorem functions_ofProgram (refs : n.refs.map p.get? = ds.map some) (memory : Option Limits) :
    (ofProgram p n memory).functions =
      ((List.range ds.length).zip ds).map fun e => e.2.mapEntry e.1 := by
  have size : n.size = ds.length := by
    rw [← Numbering.length_refs, Program.length_refs_eq refs]
  have declared : ((List.range n.size).zip n.refs).map (Prod.map id p.get?) =
      ((List.range ds.length).zip ds).map (Prod.map id some) := by
    rw [← List.zip_map_right, ← List.zip_map_right, refs, size]
  calc (ofProgram p n memory).functions
      = (((List.range n.size).zip n.refs).map (Prod.map id p.get?)).filterMap fun e =>
          e.2.map (·.mapEntry e.1) := by
        rw [List.filterMap_map]
        rfl
    _ = ((List.range ds.length).zip ds).map fun e => e.2.mapEntry e.1 := by
        rw [declared, List.filterMap_map, ← List.filterMap_eq_map]
        rfl

/-- Entries that stand at their indices are found by them. -/
theorem findByIndex_eq {m : ModuleMap}
    (indices : m.functions.map (·.index.toNat) = List.range m.functions.length) (i : UInt32) :
    m.findByIndex i = m.functions[i.toNat]? := by
  have place : ∀ (k : Nat) (e : MapEntry), m.functions[k]? = some e → e.index.toNat = k := by
    intro k e at_k
    have here := congrArg (·[k]?) indices
    simp only [List.getElem?_map, at_k, Option.map_some] at here
    obtain ⟨_, at_range⟩ := List.getElem?_eq_some_iff.1 here.symm
    simpa using at_range.symm
  cases found : m.functions[i.toNat]? with
  | none =>
    refine List.find?_eq_none.2 ?_
    intro e mem same
    obtain ⟨k, at_k⟩ := List.mem_iff_getElem?.1 mem
    rw [beq_iff_eq] at same
    rw [← same, place k e at_k, at_k] at found
    cases found
  | some e =>
    obtain ⟨lt, here⟩ := List.getElem?_eq_some_iff.1 found
    refine List.find?_eq_some_iff_getElem.2 ⟨?_, i.toNat, lt, here, ?_⟩
    · exact beq_iff_eq.2 (UInt32.toNat_inj.1 (place _ e found))
    · intro j before
      have at_j := place j _ (List.getElem?_eq_getElem (before.trans lt))
      rw [Bool.not_eq_true', beq_eq_false_iff_ne]
      intro same
      rw [same] at at_j
      omega

end ModuleMap

/-! ## Agreement -/

namespace ModuleMap

open ModuleDraft

variable {memory : Option Limits} {ds imports defined : List Declaration} {code : List Code}
  {m : ModuleMap}

/-- The map is made from the declarations, in function order. -/
structure IsOf (m : ModuleMap) (memory : Option Limits) (ds : List Declaration) : Prop where
  /-- The functions. -/
  functions : m.functions = ((List.range ds.length).zip ds).map fun e => e.2.mapEntry e.1
  /-- The memory. -/
  memory : m.memory = memory

namespace IsOf

variable (isOf : m.IsOf memory ds)

include isOf

theorem getElem?_functions (i : Nat) : m.functions[i]? = ds[i]?.map (·.mapEntry i) := by
  rw [isOf.functions, List.getElem?_map]
  cases at_i : ds[i]? with
  | none =>
    have none : ((List.range ds.length).zip ds)[i]? = none := by
      simpa using List.getElem?_eq_none_iff.1 at_i
    rw [none]
    rfl
  | some d =>
    have entry : ((List.range ds.length).zip ds)[i]? = some (i, d) :=
      List.getElem?_zip_eq_some.2
        ⟨List.getElem?_range (List.getElem?_eq_some_iff.1 at_i).1, at_i⟩
    rw [entry]
    rfl

theorem map_index (small : ds.length < 2 ^ 32) :
    m.functions.map (·.index.toNat) = List.range ds.length := by
  have each : ∀ e ∈ (List.range ds.length).zip ds, (e.2.mapEntry e.1).index.toNat = e.1 := by
    intro e mem
    have := List.mem_range.1 (List.of_mem_zip mem).1
    exact e.2.index_mapEntry (by omega)
  rw [isOf.functions, List.map_map]
  refine (List.map_congr_left each).trans ?_
  exact List.map_fst_zip (by simp)

/-- Exports of the map are those of the module. -/
theorem map_findExport (small : ds.length < 2 ^ 32) (s : String) :
    (m.findExport s).map (·.index.toNat) =
      ((moduleOf memory ds code).exports.find? (·.name == s)).map (·.index) := by
  have found : (moduleOf memory ds code).exports.find? (·.name == s) =
      (((List.range ds.length).zip ds).find? fun e => e.2.isExport && e.2.name == s).map
        fun e => ⟨e.2.name, .func, e.1⟩ := by
    show (ModuleDraft.exports _).find? _ = _
    rw [exports_eq, List.find?_map, List.find?_filter]
    simp only [Bool.decide_and, Bool.decide_eq_true]
    rfl
  have entry : m.findExport s =
      (((List.range ds.length).zip ds).find? fun e => e.2.isExport && e.2.name == s).map
        fun e => e.2.mapEntry e.1 := by
    rw [findExport, isOf.functions, List.find?_map]
    simp only [Function.comp_def, Declaration.kind_mapEntry_exported]
    rfl
  rw [found, entry, Option.map_map, Option.map_map]
  refine Option.map_congr ?_
  intro e mem
  have := List.mem_range.1 (List.of_mem_zip (List.mem_of_find?_eq_some mem)).1
  exact e.2.index_mapEntry (by omega)

theorem filter_hostCode : m.functions.filter (·.hostCode.isSome) = m.imports := by
  rw [ModuleMap.imports, isOf.functions]
  refine List.filter_congr ?_
  intro e mem
  obtain ⟨entry, -, rfl⟩ := List.mem_map.1 mem
  rw [Declaration.isSome_hostCode_mapEntry, Declaration.kind_mapEntry_imported]

end IsOf

/-- The imports of the map are the first entries. -/
theorem IsOf.imports_eq (isOf : m.IsOf memory (imports ++ defined))
    (imported : ∀ d ∈ imports, d.isImport = true) (others : ∀ d ∈ defined, d.isImport = false) :
    m.imports = ((List.range imports.length).zip imports).map fun e => e.2.mapEntry e.1 := by
  rw [ModuleMap.imports, isOf.functions, List.filter_map, Function.comp_def]
  simp only [Declaration.kind_mapEntry_imported]
  rw [zip_range_append, List.filter_append, filter_zip_eq_self imported, filter_zip_eq_nil others,
    List.append_nil]

/-- A map and a module that are made from the same declarations agree. -/
theorem IsOf.describes (isOf : m.IsOf memory (imports ++ defined))
    (imported : ∀ d ∈ imports, d.isImport = true) (others : ∀ d ∈ defined, d.isImport = false)
    (tidy : ∀ d ∈ imports ++ defined, d.Tidy) (small : (imports ++ defined).length < 2 ^ 32) :
    m.Describes (moduleOf memory (imports ++ defined) code) where
  indices := by rw [count_func_moduleOf imported others, isOf.map_index small]
  types i e at_i := by
    rw [isOf.getElem?_functions, Option.map_eq_some_iff] at at_i
    obtain ⟨d, at_i, rfl⟩ := at_i
    have lt := (List.getElem?_eq_some_iff.1 at_i).1
    rw [functionTypeIndices_moduleOf imported others]
    refine ⟨List.getElem?_range lt, d.funcType, ?_, ?_, rfl⟩
    · show ((imports ++ defined).map (·.funcType))[i]? = _
      rw [List.getElem?_map, at_i]
      rfl
    · exact (tidy d (List.mem_of_getElem? at_i)).map_some_params.symm
  byIndex := by
    refine findByIndex_eq ?_
    rw [isOf.map_index small, isOf.functions]
    simp
  imports := by
    have functions : ∀ x ∈ ((List.range imports.length).zip imports).map
        (fun e => (⟨hostModule, e.2.name, .func e.1⟩ : Import)),
        (match x.kind with
          | .func _ => true
          | _ => false) = true := List.forall_mem_map.2 fun _ _ => rfl
    have memories : ∀ x ∈ memory.toList.map
        (fun l => (⟨hostModule, memoryField, .memory (.narrow l)⟩ : Import)),
        ¬(match x.kind with
          | .func _ => true
          | _ => false) = true := by simp
    rw [imports_moduleOf imported others, isOf.imports_eq imported others, List.filter_append,
      List.filter_eq_self.2 functions, List.filter_eq_nil_iff.2 memories, List.append_nil,
      List.map_map]
    refine List.map_congr_left ?_
    intro e mem
    have := List.mem_range.1 (List.of_mem_zip mem).1
    rw [List.length_append] at small
    rw [Function.comp_apply, e.2.index_mapEntry (by omega)]
    rfl
  hostCode := isOf.filter_hostCode
  exportKinds x mem := by
    obtain ⟨t, -, d, -, -, rfl⟩ := mem_exports mem
    rfl
  exports := isOf.map_findExport small
  memory := by
    rw [imports_moduleOf imported others, List.filterMap_append, List.filterMap_map,
      List.filterMap_map, isOf.memory, List.filterMap_eq_nil_iff.2 (by simp), List.nil_append]
    cases memory <;> rfl

end ModuleMap

/-! ## Compiled programs -/

namespace Program

open ModuleDraft

variable {p : Program} {o : EmitOptions} {bs : Bytes} {m : ModuleMap}

/-- The map comes with the module. -/
theorem compileWithMap_eq_ok :
    p.compileWithMap o = .ok (bs, m) ↔
      p.compile o = .ok bs ∧ m = .ofProgram p p.usual o.memory := by
  constructor
  · intro compiled
    refine ⟨by rw [compile, compiled]; rfl, ?_⟩
    simp only [compileWithMap, bind_eq_ok, mapError_eq_ok, pure, Except.pure, Except.ok.injEq,
      Prod.mk.injEq] at compiled
    obtain ⟨-, -, n, number, _, -, _, -, _, -, -, rfl⟩ := compiled
    rw [← Except.ok.inj ((number_eq p).symm.trans number)]
    rfl
  · rintro ⟨compiled, rfl⟩
    obtain ⟨valid, n, first, last, number, started, row, finished⟩ := compile_eq_ok.1 compiled
    obtain rfl : p.usual = n := Except.ok.inj ((number_eq p).symm.trans number)
    simp [compileWithMap, valid, number, started, row, finished, Except.mapError, bind, Except.bind,
      pure, Except.pure]

/-- A compiled program has not too many functions to be counted in 32 bits. -/
theorem length_lt_of_compile (tidy : p.Tidy) (compiled : p.compile o = .ok bs)
    {ds : List Declaration} (refs : p.usual.refs.map p.get? = ds.map some) :
    ds.length < 2 ^ 32 := by
  obtain ⟨-, n, first, last, number, started, row, finished⟩ := compile_eq_ok.1 compiled
  obtain rfl : p.usual = n := Except.ok.inj ((number_eq p).symm.trans number)
  obtain ⟨⟨imports, defined, accepts⟩, rfl⟩ := start_eq_ok.1 started
  have complete := complete_usual p
  obtain ⟨ds', refs', -, accepted, rfl⟩ :=
    finish_addLowered tidy complete (accepts.numberedBy complete) row finished
  obtain rfl : ds = ds' :=
    List.map_injective_iff.2 (Option.some_injective _) (refs.symm.trans refs')
  obtain ⟨fits, -⟩ := (Module.ofBytes?_write (isPlain_moduleOf ..)).1 accepted
  have types : (ds.map (·.funcType)).length < 2 ^ 32 := fits.types.1
  rwa [List.length_map] at types

/-- The map that comes with a module describes the module that is read from its bytes. -/
theorem map_describes (built : p.Built) (made : p.compileWithMap o = .ok (bs, m)) :
    ∃ mod, Module.ofBytes? bs = some mod ∧ m.Describes mod := by
  obtain ⟨compiled, rfl⟩ := compileWithMap_eq_ok.1 made
  have tidy := built.tidy
  obtain ⟨imports, defined, accepts, read, -, -⟩ := emitted_of_compile tidy compiled
  have declared : ∀ d ∈ imports ++ defined, d.Tidy := by
    intro d mem
    obtain ⟨f, known⟩ := exists_get? accepts.refs mem
    exact tidy.decls f d known
  have isOf : (ModuleMap.ofProgram p p.usual o.memory).IsOf o.memory (imports ++ defined) :=
    ⟨ModuleMap.functions_ofProgram accepts.refs o.memory, rfl⟩
  exact ⟨_, read, isOf.describes accepts.imported accepts.defined declared
    (length_lt_of_compile tidy compiled accepts.refs)⟩

theorem map_describes_sample :
    ∃ bs m mod, sample.compileWithMap ⟨some ⟨1, some 2⟩⟩ = .ok (bs, m) ∧
      Module.ofBytes? bs = some mod ∧ m.Describes mod := by
  obtain ⟨⟨bs, m⟩, made⟩ : ∃ made, sample.compileWithMap ⟨some ⟨1, some 2⟩⟩ = .ok made :=
    exists_eq_ok_of_toBool (by decide +kernel)
  obtain ⟨mod, read, describes⟩ := map_describes built_sample made
  exact ⟨bs, m, mod, made, read, describes⟩

end Program

end WasmForge

import Mathlib
import WasmForge.Proofs.Emitting
import WasmForge.Proofs.StackTyping

/-!
# Which programs are accepted

Compilation accepts exactly the well-formed programs, as far as they are within the limits of the
format: the type checks of lowering and the check of the finished module together come to the rules
of `WellFormed`.

* `ModuleDraft.isValid_moduleOf`: when the module of a program is valid.
* `Program.WithinLimits`: the limits of the format.
* `Program.compile_isOk_iff`: which programs are accepted.
-/

namespace WasmForge

open ModuleDraft

/-! ## The parts of a module -/

namespace ModuleDraft

variable {β : Type} {memory : Option Limits} {imports defined : List Declaration} {code : List β}

/-- Indices of imports come before those of defined functions. -/
theorem zip_range_append (imports defined : List Declaration) :
    (List.range (imports ++ defined).length).zip (imports ++ defined) =
      (List.range imports.length).zip imports ++
        (List.range' imports.length defined.length).zip defined := by
  rw [List.length_append, List.range_eq_range', ← List.range'_append_1, Nat.zero_add,
    List.zip_append (by simp), ← List.range_eq_range']

theorem map_snd_zip_range {α : Type} (l : List α) :
    ((List.range l.length).zip l).map Prod.snd = l :=
  List.map_snd_zip (by simp)

/-- What is made of the entries without their indices. -/
theorem map_zip_range {α β : Type} (f : α → β) (l : List α) :
    ((List.range l.length).zip l).map (fun e => f e.2) = l.map f := by
  conv_rhs => rw [← map_snd_zip_range l, List.map_map]
  rfl

theorem filter_zip_eq_self {α : Type} {is : List α} {ds : List Declaration}
    {test : Declaration → Bool} (all : ∀ d ∈ ds, test d = true) :
    (is.zip ds).filter (fun e => test e.2) = is.zip ds := by
  refine List.filter_eq_self.2 ?_
  intro e mem
  exact all e.2 (List.of_mem_zip mem).2

theorem filter_zip_eq_nil {α : Type} {is : List α} {ds : List Declaration}
    {test : Declaration → Bool} (none : ∀ d ∈ ds, test d = false) :
    (is.zip ds).filter (fun e => test e.2) = [] := by
  refine List.filter_eq_nil_iff.2 ?_
  intro e mem
  simp [none e.2 (List.of_mem_zip mem).2]

theorem map_snd_filter_zip {α : Type} {is : List α} {ds : List Declaration}
    (size : is.length = ds.length) (test : Declaration → Bool) :
    ((is.zip ds).filter fun e => test e.2).map Prod.snd = ds.filter test := by
  conv_rhs => rw [← List.map_snd_zip size.ge, List.filter_map]
  rfl

/-- Entries are made for the declarations of one kind. -/
theorem filterMap_entries {α : Type} (test : Declaration → Bool) (entry : Nat → Declaration → α)
    (entries : List (Nat × Declaration)) :
    (entries.filterMap fun (i, d) => if test d then some (entry i d) else none) =
      (entries.filter fun e => test e.2).map fun e => entry e.1 e.2 := by
  induction entries with
  | nil => rfl
  | cons e entries ih => cases kind : test e.2 <;> simp [kind, ih]

theorem imports_eq (memory : Option Limits) (entries : List (Nat × Declaration)) :
    ModuleDraft.imports memory entries =
      ((entries.filter (·.2.isImport)).map fun e => ⟨hostModule, e.2.name, .func e.1⟩) ++
        memory.toList.map fun l => ⟨hostModule, memoryField, .memory (.narrow l)⟩ :=
  congrArg (· ++ _)
    (filterMap_entries (·.isImport) (fun i d => Import.mk hostModule d.name (.func i)) entries)

theorem exports_eq (entries : List (Nat × Declaration)) :
    ModuleDraft.exports entries =
      (entries.filter (·.2.isExport)).map fun e => ⟨e.2.name, .func, e.1⟩ :=
  filterMap_entries (·.isExport) (fun i d => Export.mk d.name .func i) entries

/-- The imported functions have the indices of the imports as their types. -/
theorem filterMap_imports (memory : Option Limits) (entries : List (Nat × Declaration)) :
    ((ModuleDraft.imports memory entries).filterMap fun i => match i.kind with
      | .func t => some t
      | _ => none) = (entries.filter (·.2.isImport)).map (·.1) := by
  rw [imports_eq, List.filterMap_append, List.filterMap_map, List.filterMap_map]
  cases memory <;> simp

section

variable (imported : ∀ d ∈ imports, d.isImport = true) (others : ∀ d ∈ defined, d.isImport = false)

include imported others

/-- The imports of a module: functions, by their indices, and then the memory. -/
theorem imports_moduleOf :
    (moduleOf memory (imports ++ defined) code).imports =
      (((List.range imports.length).zip imports).map fun e =>
        (⟨hostModule, e.2.name, .func e.1⟩ : Import)) ++
        memory.toList.map fun l => ⟨hostModule, memoryField, .memory (.narrow l)⟩ := by
  show ModuleDraft.imports memory _ = _
  rw [imports_eq, zip_range_append, List.filter_append, filter_zip_eq_self imported,
    filter_zip_eq_nil others, List.append_nil]

theorem functions_moduleOf :
    (moduleOf memory (imports ++ defined) code).functions =
      List.range' imports.length defined.length := by
  have noImport : ∀ d ∈ imports, (!d.isImport) = false := by simpa using imported
  have allDefined : ∀ d ∈ defined, (!d.isImport) = true := by simpa using others
  show (ModuleDraft.defined _).map _ = _
  rw [ModuleDraft.defined, zip_range_append, List.filter_append, filter_zip_eq_nil noImport,
    filter_zip_eq_self allDefined, List.nil_append, List.map_fst_zip (by simp)]

/-- Every function has its own index as the index of its type. -/
theorem functionTypeIndices_moduleOf :
    (moduleOf memory (imports ++ defined) code).functionTypeIndices =
      List.range (imports ++ defined).length := by
  rw [Module.functionTypeIndices, functions_moduleOf imported others]
  refine (congrArg (· ++ _) (filterMap_imports memory _)).trans ?_
  rw [zip_range_append, List.filter_append, filter_zip_eq_self imported, filter_zip_eq_nil others,
    List.append_nil, List.map_fst_zip (by simp), List.length_append, List.range_eq_range',
    List.range_eq_range', ← List.range'_append_1, Nat.zero_add]

theorem count_func_moduleOf :
    (moduleOf memory (imports ++ defined) code).count .func = (imports ++ defined).length := by
  rw [Module.count, functionTypeIndices_moduleOf imported others, List.length_range]

theorem importedFunctionCount_moduleOf :
    (moduleOf memory (imports ++ defined) code).importedFunctionCount = imports.length := by
  rw [Module.importedFunctionCount, functionTypeIndices_moduleOf imported others,
    functions_moduleOf imported others]
  simp

end

theorem getElem?_funcType_of_mem (others : List Declaration) {e : Nat × Declaration}
    (mem : e ∈ (List.range imports.length).zip imports) :
    ((imports ++ others).map (·.funcType))[e.1]? = some e.2.funcType := by
  have here := mem_zip_range.1 mem
  rw [List.getElem?_map, List.getElem?_append_left (List.getElem?_eq_some_iff.1 here).1, here]
  rfl

theorem mapM_getElem?_range {α : Type} (l : List α) :
    (List.range l.length).mapM (l[·]?) = some l := by
  refine mapM_eq_some.2 (List.ext_getElem (by simp) ?_)
  intro i _ lt
  simp

theorem distinctNames_eq_true {names : List String} :
    Module.distinctNames names = true ↔ names.Nodup := by
  induction names with
  | nil => simp [Module.distinctNames]
  | cons n names ih => simp [Module.distinctNames, ih]

/-- The exported names, in function order. -/
theorem map_name_exports (ds : List Declaration) :
    (ModuleDraft.exports ((List.range ds.length).zip ds)).map (·.name) =
      (ds.filter (·.isExport)).map (·.name) := by
  rw [exports_eq, ← map_snd_filter_zip (List.length_range (n := ds.length)), List.map_map,
    List.map_map]
  rfl

theorem checkCode_map {ε : Type} {types functions : List FuncType} {entries : List ε}
    {type : ε → FuncType} {code : ε → Code} :
    Module.checkCode types functions (entries.map type) (entries.map code) = true ↔
      ∀ e ∈ entries, (code e).check types functions (type e) = true := by
  induction entries with
  | nil => simp [Module.checkCode]
  | cons e entries ih => simp [Module.checkCode, ih]

theorem all_types_moduleOf (ds : List Declaration) :
    (moduleOf memory ds code).types.all
        (fun t => t.params.length ≤ maxParams && t.results.length ≤ maxResults) = true ↔
      ∀ d ∈ ds, d.funcType.params.length ≤ maxParams := by
  have results : ∀ d : Declaration, d.funcType.results.length ≤ maxResults := by
    intro d
    show d.result.valType?.toList.length ≤ maxResults
    cases d.result <;> decide
  simp [moduleOf, results]

/-- The imports are the imported functions and the memory. -/
theorem mem_imports {ds : List Declaration} {i : Import}
    (mem : i ∈ (moduleOf memory ds code).imports) :
    (∃ t < ds.length, ∃ d ∈ ds, d.isImport = true ∧ i = ⟨hostModule, d.name, .func t⟩) ∨
      ∃ l, memory = some l ∧ i = ⟨hostModule, memoryField, .memory (.narrow l)⟩ := by
  have mem : i ∈ ModuleDraft.imports memory ((List.range ds.length).zip ds) := mem
  rw [imports_eq, List.mem_append, List.mem_map, List.mem_map] at mem
  rcases mem with ⟨e, here, rfl⟩ | ⟨l, here, rfl⟩
  · obtain ⟨here, imported⟩ := List.mem_filter.1 here
    obtain ⟨index, decl⟩ := List.of_mem_zip here
    exact .inl ⟨e.1, List.mem_range.1 index, e.2, decl, imported, rfl⟩
  · exact .inr ⟨l, Option.mem_toList.1 here, rfl⟩

/-- The exports are the exported functions. -/
theorem mem_exports {ds : List Declaration} {e : Export}
    (mem : e ∈ (moduleOf memory ds code).exports) :
    ∃ t < ds.length, ∃ d ∈ ds, d.isExport = true ∧ e = ⟨d.name, .func, t⟩ := by
  have mem : e ∈ ModuleDraft.exports ((List.range ds.length).zip ds) := mem
  rw [exports_eq, List.mem_map] at mem
  obtain ⟨entry, here, rfl⟩ := mem
  obtain ⟨here, exported⟩ := List.mem_filter.1 here
  obtain ⟨index, decl⟩ := List.of_mem_zip here
  exact ⟨entry.1, List.mem_range.1 index, entry.2, decl, exported, rfl⟩

theorem mem_functions {ds : List Declaration} {i : Nat}
    (mem : i ∈ (moduleOf memory ds code).functions) : i < ds.length := by
  obtain ⟨e, here, rfl⟩ := List.mem_map.1 mem
  exact List.mem_range.1 (List.of_mem_zip (List.mem_of_mem_filter here)).1

theorem all_imports_moduleOf (ds : List Declaration) :
    (moduleOf memory ds code).imports.all (·.kind.isValid ds.length) = true ↔
      ∀ l, memory = some l → l.fitMemory = true := by
  rw [List.all_eq_true]
  constructor
  · rintro all l rfl
    refine all ⟨hostModule, memoryField, .memory (.narrow l)⟩ (List.mem_append_right _ ?_)
    exact List.mem_singleton_self _
  · intro fits i mem
    rcases mem_imports mem with ⟨t, lt, d, -, -, rfl⟩ | ⟨l, memory, rfl⟩
    · exact decide_eq_true lt
    · exact fits l memory

theorem count_table_moduleOf (ds : List Declaration) :
    (moduleOf memory ds code).count .table = 0 := by
  refine Nat.add_eq_zero_iff.2 ⟨List.countP_eq_zero.2 ?_, rfl⟩
  intro i mem
  rcases mem_imports mem with ⟨t, -, d, -, -, rfl⟩ | ⟨l, -, rfl⟩ <;> simp

theorem count_memory_moduleOf (ds : List Declaration) :
    (moduleOf memory ds code).count .memory ≤ maxStores := by
  have one : ∀ test : Import → Bool, List.countP test (memory.toList.map fun limits =>
      ⟨hostModule, memoryField, .memory (.narrow limits)⟩) ≤ 1 := by
    intro test
    refine List.countP_le_length.trans ?_
    cases memory <;> simp
  show List.countP _ (ModuleDraft.imports memory _) + 0 ≤ maxStores
  rw [imports_eq, List.countP_append, List.countP_map, List.countP_eq_zero.2 (by simp)]
  exact (Nat.add_le_add_left (one _) 0).trans (by decide)

section

variable (imported : ∀ d ∈ imports, d.isImport = true) (others : ∀ d ∈ defined, d.isImport = false)

include imported others

/-- The types of all functions. -/
theorem mapM_types_moduleOf :
    (moduleOf memory (imports ++ defined) code).functionTypeIndices.mapM
        ((moduleOf memory (imports ++ defined) code).types[·]?) =
      some ((imports ++ defined).map (·.funcType)) := by
  rw [functionTypeIndices_moduleOf imported others]
  have := mapM_getElem?_range ((imports ++ defined).map (·.funcType))
  rwa [List.length_map] at this

/-- The types of the functions with a body. -/
theorem drop_types_moduleOf :
    ((imports ++ defined).map (·.funcType)).drop
        (moduleOf memory (imports ++ defined) code).importedFunctionCount =
      defined.map (·.funcType) := by
  rw [importedFunctionCount_moduleOf imported others, List.map_append]
  exact List.drop_left' (by simp)

end

/-- When the module of declarations, imports first, is valid. -/
theorem isValid_moduleOf (imported : ∀ d ∈ imports, d.isImport = true)
    (others : ∀ d ∈ defined, d.isImport = false) {cs : List Code} :
    (moduleOf memory (imports ++ defined) cs).isValid = true ↔
      (∀ d ∈ imports ++ defined, d.funcType.params.length ≤ maxParams) ∧
      (∀ l, memory = some l → l.fitMemory = true) ∧
      (((imports ++ defined).filter (·.isExport)).map (·.name)).Nodup ∧
      (moduleOf memory (imports ++ defined) cs).typeSize
        ((imports ++ defined).map (·.funcType)) < typeSizeBound ∧
      Module.checkCode ((imports ++ defined).map (·.funcType))
        ((imports ++ defined).map (·.funcType)) (defined.map (·.funcType)) cs = true := by
  have inRange : (moduleOf memory (imports ++ defined) cs).exports.all (fun e =>
      e.index < (moduleOf memory (imports ++ defined) cs).count e.kind) = true := by
    refine List.all_eq_true.2 ?_
    intro e mem
    obtain ⟨t, lt, d, -, -, rfl⟩ := mem_exports mem
    rw [count_func_moduleOf imported others]
    exact decide_eq_true lt
  have importsFit : (moduleOf memory (imports ++ defined) cs).imports.all
      (·.kind.isValid (moduleOf memory (imports ++ defined) cs).types.length) = true ↔
        ∀ l, memory = some l → l.fitMemory = true := by
    have types : (moduleOf memory (imports ++ defined) cs).types.length =
        (imports ++ defined).length := List.length_map ..
    rw [types]
    exact all_imports_moduleOf _
  have names : Module.distinctNames
      ((moduleOf memory (imports ++ defined) cs).exports.map (·.name)) = true ↔
        (((imports ++ defined).filter (·.isExport)).map (·.name)).Nodup := by
    rw [distinctNames_eq_true, ← map_name_exports]
    rfl
  have noTables : (moduleOf memory (imports ++ defined) cs).count .table ≤ maxStores := by
    rw [count_table_moduleOf]
    exact Nat.zero_le _
  rw [Module.isValid, mapM_types_moduleOf imported others]
  simp only [Bool.and_eq_true, drop_types_moduleOf imported others, all_types_moduleOf,
    importsFit, names, inRange, decide_eq_true noTables, decide_eq_true (count_memory_moduleOf _),
    decide_eq_true_eq, and_true, and_assoc]
  simp [moduleOf]

end ModuleDraft

/-! ## The size of the types -/

namespace ModuleDraft

variable {memory : Option Limits} {ds : List Declaration}

/-- The size of the types of all imports and exports together. -/
theorem typeSize_moduleOf {β : Type} (code : List β) :
    (moduleOf memory ds code).typeSize (ds.map (·.funcType)) =
      1 + (((ds.filter (·.isImport)).map (·.funcType.size)).sum + memory.toList.length) +
        ((ds.filter (·.isExport)).map (·.funcType.size)).sum := by
  have indexed : ∀ e ∈ (List.range ds.length).zip ds,
      ((ds.map (·.funcType))[e.1]?).elim 1 FuncType.size = e.2.funcType.size := by
    intro e mem
    rw [List.getElem?_map, mem_zip_range.1 mem]
    rfl
  have sizes : ∀ test : Declaration → Bool,
      (((List.range ds.length).zip ds).filter fun e => test e.2).map
          (fun e => ((ds.map (·.funcType))[e.1]?).elim 1 FuncType.size) =
        (ds.filter test).map (·.funcType.size) := by
    intro test
    rw [← map_snd_filter_zip (List.length_range (n := ds.length)), List.map_map]
    exact List.map_congr_left fun e mem => indexed e (List.mem_of_mem_filter mem)
  rw [Module.typeSize, ← List.sum_eq_foldl_nat, ← List.sum_eq_foldl_nat]
  refine congrArg₂ (fun x y => 1 + x + y) ?_ ?_
  · show ((ModuleDraft.imports memory _).map _).sum = _
    rw [imports_eq, List.map_append, List.sum_append, List.map_map]
    exact congrArg₂ (· + ·) (congrArg List.sum (sizes _)) (by cases memory <;> rfl)
  · show ((ModuleDraft.exports _).map _).sum = _
    rw [exports_eq, List.map_map]
    exact congrArg List.sum (sizes _)

end ModuleDraft

/-! ## Valid emitted modules -/

namespace Program

variable {p : Program} {n : Numbering} {o : EmitOptions} {imports defined ds : List Declaration}

/-- The declaration at the index of a function is that of the function. -/
theorem getElem?_number (numbered : p.NumberedBy n) (refs : n.refs.map p.get? = ds.map some)
    {g : FuncRef} {d : Declaration} (known : p.get? g = some d) : ds[n.number g]? = some d := by
  obtain ⟨i, index⟩ := Option.isSome_iff_exists.1 (numbered g d known)
  have at_i := congrArg (·[i]?) refs
  simp only [List.getElem?_map, Numbering.getElem?_refs_of_indexOf? index, Option.map_some,
    known] at at_i
  rw [Numbering.number, index, Option.getD_some]
  cases here : ds[i]? <;> simp_all

theorem length_refs_eq (refs : n.refs.map p.get? = ds.map some) : n.refs.length = ds.length := by
  simpa using congrArg List.length refs

/-- If no two functions of a kind have one name, no two entries for them have. -/
theorem nodup_names (complete : n.Complete) (refs : n.refs.map p.get? = ds.map some)
    {test : Declaration → Bool}
    (unique : ∀ f g d e, p.get? f = some d → p.get? g = some e → test d = true → test e = true →
      d.name = e.name → f = g) : ((ds.filter test).map (·.name)).Nodup := by
  have distinct : (n.refs.zip ds).Nodup := by
    refine List.Nodup.of_map Prod.fst ?_
    rw [List.map_fst_zip (length_refs_eq refs).le]
    exact complete.nodup_refs
  rw [← map_snd_filter_zip (length_refs_eq refs), List.map_map]
  refine List.Nodup.map_on ?_ (distinct.filter _)
  intro x hx y hy same
  obtain ⟨hx, testX⟩ := List.mem_filter.1 hx
  obtain ⟨hy, testY⟩ := List.mem_filter.1 hy
  have knownX := ((mem_zip_refs refs).1 hx).2
  have knownY := ((mem_zip_refs refs).1 hy).2
  have handles := unique x.1 y.1 x.2 y.2 knownX knownY testX testY same
  rw [← handles] at knownY
  exact Prod.ext handles (Option.some.inj (knownX.symm.trans knownY))

/-- The first declarations in function order, and no others, are imports. -/
theorem filter_isImport (accepts : Accepts p n o imports defined) :
    (imports ++ defined).filter (·.isImport) = imports := by
  rw [List.filter_append, List.filter_eq_self.2 accepts.imported,
    List.filter_eq_nil_iff.2 (by simpa using accepts.defined), List.append_nil]

/-- The types of the defined functions, in function order. -/
theorem map_funcType_defined (accepts : Accepts p n o imports defined) :
    defined.map (·.funcType) = (definedRefs n (imports ++ defined)).map (·.2.funcType) := by
  have only : (imports ++ defined).filter (!·.isImport) = defined := by
    rw [List.filter_append, List.filter_eq_nil_iff.2 (by simpa using accepts.imported),
      List.filter_eq_self.2 (by simpa using accepts.defined), List.nil_append]
  conv_lhs => rw [← only, ← map_snd_filter_zip (length_refs_eq accepts.refs), List.map_map]
  rfl

/-- When the emitted module is valid. -/
theorem isValid_emitted (tidy : p.Tidy) (complete : n.Complete)
    (accepts : Accepts p n o imports defined)
    (bodies : ∀ e ∈ definedRefs n (imports ++ defined), p.HasBody e.1 e.2) :
    (p.emitted n o (imports ++ defined)).isValid = true ↔
      (∀ d ∈ imports ++ defined, d.funcType.params.length ≤ maxParams) ∧
      (∀ l, o.memory = some l → l.fitMemory = true) ∧
      (p.emitted n o (imports ++ defined)).typeSize
        ((imports ++ defined).map (·.funcType)) < typeSizeBound ∧
      ∀ e ∈ definedRefs n (imports ++ defined),
        (p.codeOf n e.1 e.2).localCount e.2.funcType.params ≤ maxLocals ∧
          (e.2.result ≠ .void → ∃ body, e.2.body = some body ∧ body.Returns) := by
  have numbered := accepts.numberedBy complete
  rw [emitted, isValid_moduleOf accepts.imported accepts.defined,
    and_iff_right (nodup_names complete accepts.refs tidy.exports), map_funcType_defined accepts,
    checkCode_map]
  refine and_congr_right fun _ => and_congr_right fun _ => and_congr_right fun _ => ?_
  refine forall₂_congr fun e mem => ?_
  obtain ⟨-, known, -⟩ := (mem_definedRefs accepts.refs).1 mem
  obtain ⟨body, has, typed⟩ := bodies e mem
  have indexed : ∀ g d, p.get? g = some d →
      ((imports ++ defined).map (·.funcType))[n.number g]? = some d.funcType := by
    intro g d hg
    rw [List.getElem?_map, getElem?_number numbered accepts.refs hg]
    rfl
  have check := Scope.check_code (s := ⟨p, e.1, e.2⟩) ((imports ++ defined).map (·.funcType)) known
    (tidy.decls e.1 e.2 known) indexed typed
  rw [codeOf, has, Option.getD_some, check]
  simp

/-! ## Bodies in 32 bits -/

theorem localCount_eq (c : Code) (params : List ValType) :
    c.localCount params = params.length + (c.locals.map (·.1)).sum := by
  rw [Code.localCount, List.sum_eq_foldl_nat]

theorem length_localTypes (c : Code) (params : List ValType) :
    (c.localTypes params).length = c.localCount params := by
  simp [localCount_eq, Code.localTypes, List.length_flatMap]

theorem fits_localGroups {layout : SlotLayout} {count : Nat}
    (few : (layout.localGroups.map (·.1)).sum ≤ count) (small : count < 2 ^ 32) :
    layout.localGroups.length < 2 ^ 32 ∧ ∀ g ∈ layout.localGroups, g.1 < 2 ^ 32 := by
  constructor
  · have groups : layout.localGroups.length ≤ 2 :=
      (List.length_filterMap_le ..).trans (List.length_filter_le ..)
    omega
  · intro g mem
    have : g.1 ≤ (layout.localGroups.map (·.1)).sum :=
      List.le_sum_of_mem (List.mem_map_of_mem mem)
    omega

/-- The numbers in a linked body fit if there are not too many locals and functions. -/
theorem fits_codeOf (tidy : p.Tidy) (numbered : p.NumberedBy n)
    (refs : n.refs.map p.get? = ds.map some) {f : FuncRef} {d : Declaration}
    (known : p.get? f = some d)
    (few : (p.codeOf n f d).localCount d.funcType.params ≤ maxLocals)
    (functions : ds.length < 2 ^ 32) : (p.codeOf n f d).Fits := by
  have small : maxLocals < 2 ^ 32 := by decide
  have sum := few
  rw [localCount_eq] at sum
  have groups := fits_localGroups ((Nat.le_add_left _ _).trans sum) small
  refine ⟨groups.1, groups.2, ?_⟩
  intro i mem
  rcases List.mem_append.1 mem with mem | mem
  · obtain ⟨j, here, rfl⟩ := List.mem_map.1 mem
    have knows := Scope.within_stmt (s := ⟨p, f, d⟩) _ j here
    obtain ⟨o, rfl, noBranch⟩ := knows.straight
    have slots : ∀ l ∈ o.local?,
        ((⟨p, f, d⟩ : Scope).assembled (d.body.getD (.block []))).layout.slot l < 2 ^ 32 := by
      intro l named
      obtain ⟨-, t, declared⟩ := knows.locals l named
      have storable := (tidy.decls f d known).storable _ t declared
      obtain ⟨k, slot⟩ := Option.isSome_iff_exists.1 (Assembler.slotOf?_isSome
        (a := (⟨p, f, d⟩ : Scope).assembled _) here named declared storable)
      have typed : ((p.codeOf n f d).localTypes d.funcType.params)[k]? = some t.held :=
        Scope.localTypes_slot (s := ⟨p, f, d⟩) (tidy.decls f d known) declared slot
      have := (List.getElem?_eq_some_iff.1 typed).1
      rw [length_localTypes] at this
      rw [SlotLayout.slot, slot, Option.getD_some]
      omega
    cases o with
    | br label => cases noBranch
    | brIf label => cases noBranch
    | localGet l => exact slots l rfl
    | localSet l => exact slots l rfl
    | call g =>
      obtain ⟨e, callee⟩ := knows.callees g rfl
      have := (List.getElem?_eq_some_iff.1 (getElem?_number numbered refs callee)).1
      exact this.trans functions
    | _ => exact trivial
  · cases List.mem_singleton.1 mem
    exact trivial

/-! ## The usual numbering -/

/-- The usual numbering of a program. -/
def usual (p : Program) : Numbering := ⟨p.id, (p.numbered.map (·.index)).toArray⟩

/-- The declarations in the usual function order. -/
def listed (p : Program) : List Declaration := p.numbered.filterMap p.get?

theorem refs_usual (p : Program) : p.usual.refs = p.numbered := refs_of_number (number_eq p)

theorem complete_usual (p : Program) : p.usual.Complete := (drawn_of_number (number_eq p)).complete

theorem map_get?_of_owns {fs : List FuncRef} (own : ∀ f ∈ fs, p.owns f = true) :
    fs.map p.get? = (fs.filterMap p.get?).map some := by
  induction fs with
  | nil => rfl
  | cons f fs ih =>
    rw [List.forall_mem_cons] at own
    obtain ⟨d, known⟩ := Option.isSome_iff_exists.1 own.1
    rw [List.map_cons, List.filterMap_cons_some known, List.map_cons, known, ih own.2]

/-- The handles in the usual order are those in declaration order, rearranged. -/
theorem perm_numbered (p : Program) : p.numbered.Perm p.refs := by
  have nodup : p.refs.Nodup := by
    refine List.nodup_range.map ?_
    intro i j same
    exact congrArg FuncRef.index same
  rw [List.perm_ext_iff_of_nodup (nodup_numbered p) nodup]
  intro f
  rw [mem_numbered, mem_refs]

/-- The handles of the program name its declarations in order. -/
theorem filterMap_get?_refs (p : Program) : p.refs.filterMap p.get? = p.decls.toList := by
  refine List.map_injective_iff.2 (Option.some_injective _) ?_
  rw [← map_get?_of_owns fun f mem => mem_refs.1 mem, refs, List.map_map]
  refine List.ext_getElem (by simp [size]) ?_
  intro i _ lt
  simp [get?_ref]

theorem perm_listed (p : Program) : p.listed.Perm p.decls.toList :=
  filterMap_get?_refs p ▸ (perm_numbered p).filterMap p.get?

theorem filterMap_refsWhere (p : Program) (test : Declaration → Bool) :
    (p.refsWhere test).filterMap p.get? = p.decls.toList.filter test := by
  rw [← filterMap_get?_refs, refsWhere, List.filterMap_filter, List.filter_filterMap]
  refine List.filterMap_congr ?_
  intro f _
  cases p.get? f with
  | none => simp
  | some d => simp [Option.filter]

/-- The usual numbering is accepted, unless an import has the name of the memory. -/
theorem accepts_usual (memory : o.memory.isSome = true → p.hasImport memoryField = false) :
    ∃ defined, p.listed = p.decls.toList.filter (·.isImport) ++ defined ∧
      Accepts p p.usual o (p.decls.toList.filter (·.isImport)) defined := by
  have split : p.listed = p.decls.toList.filter (·.isImport) ++
      (p.decls.toList.filter (·.linkage == .internal) ++ p.decls.toList.filter (·.isExport)) := by
    rw [listed, numbered, List.filterMap_append, List.filterMap_append, filterMap_refsWhere,
      filterMap_refsWhere, filterMap_refsWhere, List.append_assoc]
  refine ⟨_, split, rfl, ?_, memory, ?_, fun d => List.of_mem_filter, ?_⟩
  · rw [← Numbering.length_refs, refs_usual, (perm_numbered p).length_eq]
    simp [Program.refs]
  · rw [← split, refs_usual, listed]
    exact map_get?_of_owns fun f mem => mem_numbered.1 mem
  · intro d mem
    rcases List.mem_append.1 mem with mem | mem
    · have internal := List.of_mem_filter mem
      rw [beq_iff_eq] at internal
      simp [Declaration.isImport, internal, Linkage.isImport]
    · have exported := List.of_mem_filter mem
      rw [Declaration.isExport, beq_iff_eq] at exported
      simp [Declaration.isImport, exported, Linkage.isImport]

/-! ## Acceptance -/

/-- The size of the types of all declarations of one kind. -/
def typeSizes (p : Program) (test : Declaration → Bool) : Nat :=
  ((p.decls.toList.filter test).map (·.funcType.size)).sum

/-- The limits of the format that do not come from the rules of programs. -/
structure WithinLimits (p : Program) (o : EmitOptions) : Prop where
  /-- The number of parameters. -/
  params : ∀ f d, p.get? f = some d → d.params.length ≤ maxParams
  /-- The number of parameters and locals in use. -/
  locals : ∀ f d, p.get? f = some d → d.isImport = false →
    (p.codeOf p.usual f d).localCount d.funcType.params ≤ maxLocals
  /-- The names that the host sees. -/
  names : ∀ f d, p.get? f = some d → d.linkage ≠ .internal →
    (Bytes.ofText d.name).length ≤ Reader.maxNameSize
  /-- The types of what the host sees. -/
  types : 1 + (p.typeSizes (·.isImport) + o.memory.toList.length) + p.typeSizes (·.isExport) <
    typeSizeBound
  /-- The number of bytes. -/
  size : (p.emitted p.usual o p.listed).write.length < 2 ^ 32

/-- An emitted module within the limits is accepted exactly when every result is returned. -/
theorem accepted_emitted (tidy : p.Tidy) (limits : p.WithinLimits o)
    (memory : ∀ l, o.memory = some l → l.fitMemory = true)
    (free : o.memory.isSome = true → p.hasImport memoryField = false)
    (bodies : ∀ e ∈ definedRefs p.usual p.listed, p.HasBody e.1 e.2)
    (returns : ∀ e ∈ definedRefs p.usual p.listed,
      e.2.result ≠ .void → ∃ body, e.2.body = some body ∧ body.Returns) :
    Module.ofBytes? (p.emitted p.usual o p.listed).write = some (p.emitted p.usual o p.listed) := by
  obtain ⟨defined, listed, accepts⟩ := accepts_usual free
  have complete := complete_usual p
  have numbered := accepts.numberedBy complete
  have refs := listed ▸ accepts.refs
  have known : ∀ d ∈ p.listed, ∃ f, p.get? f = some d := fun d => exists_get? refs
  have functions : p.listed.length < 2 ^ 32 := by
    have := Module.types_length_lt (m := ((p.emitted p.usual o p.listed).withCode
      ((p.emitted p.usual o p.listed).code.map Code.encode)).withSizes) ⟨rfl, rfl, rfl⟩ limits.size
    simpa [Module.withSizes, Module.withCode, emitted, moduleOf] using this
  have env : (Bytes.ofText hostModule).length ≤ Reader.maxNameSize := by decide +kernel
  have field : (Bytes.ofText memoryField).length ≤ Reader.maxNameSize := by decide +kernel
  refine (Module.ofBytes?_write (isPlain_moduleOf ..)).2 ⟨?_, ?_, ?_, rfl⟩
  · refine Module.fits_of_length (isPlain_moduleOf ..) limits.size ?_ ?_ ?_
    · intro i mem
      rcases mem_imports mem with ⟨t, lt, d, here, imported, rfl⟩ | ⟨l, -, rfl⟩
      · obtain ⟨f, known⟩ := known d here
        have visible : d.linkage ≠ .internal := by
          intro internal
          simp [Declaration.isImport, internal, Linkage.isImport] at imported
        exact ⟨env, limits.names f d known visible, lt.trans functions⟩
      · exact ⟨env, field, trivial⟩
    · intro i mem
      exact (mem_functions mem).trans functions
    · intro e mem
      obtain ⟨t, lt, d, here, exported, rfl⟩ := mem_exports mem
      obtain ⟨f, known⟩ := known d here
      have visible : d.linkage ≠ .internal := by
        intro internal
        simp [Declaration.isExport, internal] at exported
      exact ⟨limits.names f d known visible, lt.trans functions⟩
  · intro c mem
    obtain ⟨e, here, rfl⟩ := List.mem_map.1 mem
    obtain ⟨-, known, defined⟩ := (mem_definedRefs refs).1 here
    exact fits_codeOf tidy numbered refs known (limits.locals e.1 e.2 known defined) functions
  · have sizes : (p.emitted p.usual o p.listed).typeSize (p.listed.map (·.funcType)) <
        typeSizeBound := by
      have sum : ∀ test, ((p.listed.filter test).map (·.funcType.size)).sum = p.typeSizes test :=
        fun test => (((perm_listed p).filter test).map _).sum_eq
      rw [emitted, typeSize_moduleOf, sum, sum]
      exact limits.types
    have counts : ∀ d ∈ p.listed, d.funcType.params.length ≤ maxParams := by
      intro d mem
      obtain ⟨f, known⟩ := known d mem
      rw [(tidy.decls f d known).params_funcType, List.length_map]
      exact limits.params f d known
    have each : ∀ e ∈ definedRefs p.usual p.listed,
        (p.codeOf p.usual e.1 e.2).localCount e.2.funcType.params ≤ maxLocals ∧
          (e.2.result ≠ .void → ∃ body, e.2.body = some body ∧ body.Returns) := by
      intro e mem
      obtain ⟨-, known, defined⟩ := (mem_definedRefs refs).1 mem
      exact ⟨limits.locals e.1 e.2 known defined, returns e mem⟩
    rw [listed] at bodies sizes counts each ⊢
    exact (isValid_emitted tidy complete accepts bodies).2 ⟨counts, memory, sizes, each⟩

theorem mem_refs_of_numberedBy (numbered : p.NumberedBy n) {f : FuncRef} {d : Declaration}
    (known : p.get? f = some d) : f ∈ n.refs := by
  obtain ⟨i, index⟩ := Option.isSome_iff_exists.1 (numbered f d known)
  exact List.mem_of_getElem? (Numbering.getElem?_refs_of_indexOf? index)

/-- What a finished draft is: the emitted module of the program, in which every body makes sense
and returns what it has to. -/
theorem emitted_of_finish (tidy : p.Tidy) (complete : n.Complete) {first last : ModuleDraft}
    (started : start p n o = .ok first) {fs : List FuncRef}
    (row : fs.foldlM p.addLowered first = .ok last) {bs : Bytes} (finished : last.finish = .ok bs) :
    ∃ imports defined, Accepts p n o imports defined ∧
      Module.ofBytes? bs = some (p.emitted n o (imports ++ defined)) ∧
      (∀ l, o.memory = some l → l.fitMemory = true) ∧
      ∀ e ∈ definedRefs n (imports ++ defined), p.HasBody e.1 e.2 ∧
        (e.2.result ≠ .void → ∃ body, e.2.body = some body ∧ body.Returns) := by
  obtain ⟨⟨imports, defined, accepts⟩, rfl⟩ := start_eq_ok.1 started
  obtain ⟨ds, refs, bodies, accepted, -⟩ :=
    finish_addLowered tidy complete (accepts.numberedBy complete) row finished
  obtain rfl : imports ++ defined = ds :=
    List.map_injective_iff.2 (Option.some_injective _) (accepts.refs.symm.trans refs)
  obtain ⟨-, memory, -, each⟩ := (isValid_emitted tidy complete accepts bodies).1
    (Module.isValid_of_ofBytes? accepted)
  exact ⟨imports, defined, accepts, accepted, memory, fun e mem => ⟨bodies e mem, (each e mem).2⟩⟩

/-- What a compiled program is: its emitted module in the usual numbering. -/
theorem emitted_of_compile (tidy : p.Tidy) {bs : Bytes} (compiled : p.compile o = .ok bs) :
    ∃ imports defined, Accepts p p.usual o imports defined ∧
      Module.ofBytes? bs = some (p.emitted p.usual o (imports ++ defined)) ∧
      (∀ l, o.memory = some l → l.fitMemory = true) ∧
      ∀ e ∈ definedRefs p.usual (imports ++ defined), p.HasBody e.1 e.2 ∧
        (e.2.result ≠ .void → ∃ body, e.2.body = some body ∧ body.Returns) := by
  obtain ⟨-, n, first, last, number, started, row, finished⟩ := compile_eq_ok.1 compiled
  obtain rfl : p.usual = n := Except.ok.inj ((number_eq p).symm.trans number)
  exact emitted_of_finish tidy (complete_usual p) started row finished

/-- What is compiled is well formed. -/
theorem wellFormed_of_compile (tidy : p.Tidy) {bs : Bytes} (compiled : p.compile o = .ok bs) :
    o.validate = .ok () ∧ (o.memory.isSome = true → p.hasImport memoryField = false) ∧
      WellFormed p := by
  obtain ⟨imports, others, accepts, -, -, each⟩ := emitted_of_compile tidy compiled
  refine ⟨(compile_eq_ok.1 compiled).1, accepts.memory, ?_⟩
  intro f d known defined
  obtain ⟨⟨body, has, typed⟩, returns⟩ := each (f, d) ((mem_definedRefs accepts.refs).2
    ⟨mem_refs_of_numberedBy (accepts.numberedBy (complete_usual p)) known, known, defined⟩)
  refine ⟨body, has, typed, ?_⟩
  intro result
  obtain ⟨_, has', here⟩ := returns result
  cases has.symm.trans has'
  exact here

/-- What is well formed and within the limits is compiled. -/
theorem compile_of_wellFormed (tidy : p.Tidy) (limits : p.WithinLimits o)
    (valid : o.validate = .ok ())
    (free : o.memory.isSome = true → p.hasImport memoryField = false) (formed : WellFormed p) :
    ∃ bs, p.compile o = .ok bs := by
  obtain ⟨defined, listed, accepts⟩ := accepts_usual free
  have complete := complete_usual p
  have refs := listed ▸ accepts.refs
  have memory : ∀ l, o.memory = some l → l.fitMemory = true := by
    intro l set
    rw [EmitOptions.validate, set] at valid
    exact (Limits.validate_eq_ok l).1 valid
  have bodies : ∀ e ∈ definedRefs p.usual p.listed, p.HasBody e.1 e.2 := by
    intro e mem
    obtain ⟨-, known, defined⟩ := (mem_definedRefs refs).1 mem
    obtain ⟨body, has, typed, -⟩ := formed e.1 e.2 known defined
    exact ⟨body, has, typed⟩
  have returns : ∀ e ∈ definedRefs p.usual p.listed,
      e.2.result ≠ .void → ∃ body, e.2.body = some body ∧ body.Returns := by
    intro e mem result
    obtain ⟨-, known, defined⟩ := (mem_definedRefs refs).1 mem
    obtain ⟨body, has, -, returns⟩ := formed e.1 e.2 known defined
    exact ⟨body, has, returns result⟩
  obtain ⟨last, row, finished⟩ := finish_of_emitted tidy complete (accepts.numberedBy complete) refs
    bodies (accepted_emitted tidy limits memory free bodies returns)
  exact ⟨_, compile_eq_ok.2 ⟨valid, p.usual, _, last, number_eq p,
    start_eq_ok.2 ⟨⟨_, defined, accepts⟩, rfl⟩, row, finished⟩⟩

/-- Within the limits of the format, a program is compiled exactly when the options are valid, the
name of the memory is not that of an import, and every function that it defines has a body that
makes sense in it and contains a return if there is a result. -/
theorem compile_isOk_iff (built : p.Built) (limits : p.WithinLimits o) :
    (∃ bs, p.compile o = .ok bs) ↔
      o.validate = .ok () ∧ ¬(o.memory.isSome = true ∧ p.hasImport "memory" = true) ∧
        WellFormed p := by
  constructor
  · rintro ⟨bs, compiled⟩
    obtain ⟨valid, free, formed⟩ := wellFormed_of_compile built.tidy compiled
    refine ⟨valid, ?_, formed⟩
    rintro ⟨set, taken⟩
    exact absurd taken (by simp [show p.hasImport "memory" = false from free set])
  · rintro ⟨valid, apart, formed⟩
    refine compile_of_wellFormed built.tidy limits valid ?_ formed
    intro set
    exact Bool.eq_false_iff.2 fun taken => apart ⟨set, taken⟩

/-- What holds of all declarations can be found out by looking at each. -/
theorem forall_of_all (test : FuncRef → Declaration → Bool)
    (all : (p.refs.all fun f => (p.get? f).all (test f)) = true) (f : FuncRef) (d : Declaration)
    (known : p.get? f = some d) : test f d = true := by
  have own : f ∈ p.refs := mem_refs.2 (Option.isSome_iff_exists.2 ⟨d, known⟩)
  have := List.all_eq_true.1 all f own
  rwa [known] at this

theorem withinLimits_sample : sample.WithinLimits ⟨some ⟨1, some 2⟩⟩ where
  params f d known := of_decide_eq_true (forall_of_all
    (fun _ d => d.params.length ≤ maxParams) (by decide +kernel) f d known)
  locals f d known _ := of_decide_eq_true (forall_of_all
    (fun f d => (sample.codeOf sample.usual f d).localCount d.funcType.params ≤ maxLocals)
    (by decide +kernel) f d known)
  names f d known _ := of_decide_eq_true (forall_of_all
    (fun _ d => (Bytes.ofText d.name).length ≤ Reader.maxNameSize) (by decide +kernel) f d known)
  types := by decide +kernel
  size := by decide +kernel

theorem compile_isOk_iff_sample :
    (∃ bs, sample.compile ⟨some ⟨1, some 2⟩⟩ = .ok bs) ∧ WellFormed sample := by
  have compiled : ∃ bs, sample.compile ⟨some ⟨1, some 2⟩⟩ = .ok bs :=
    exists_eq_ok_of_toBool (by decide +kernel)
  exact ⟨compiled, ((compile_isOk_iff built_sample withinLimits_sample).1 compiled).2.2⟩

end Program

end WasmForge

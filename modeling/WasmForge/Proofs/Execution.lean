import Mathlib
import WasmForge.Proofs.Acceptance
import WasmForge.Proofs.Simulation

/-!
# Emitted modules compute what programs mean

An export of the module that a program is emitted as gives, for all arguments and on every host,
what the evaluation of the exported function gives: the same result, or the same trap, and the same
state of the host.  The machine has its own limits; how many calls may be inside each other is a
parameter of both sides, and the number of cells is left out of `Instance.execute`.

* `Instance.linkFreely`, `Instance.execute`: execution without a bound on cells.
* `Program.serves_emitted`: the functions of an emitted module are those of the program.
* `Program.export_computes`: the meaning of programs is kept.
-/

namespace WasmForge

variable {σ : Type}

/-! ## Execution without a bound on cells -/

/-- Makes the functions of a module ready to run, with calls that take no cells. -/
def Module.prepareFreely (m : Module Code) : Option (List DefinedFunction) := do
  let functions ← m.functionTypeIndices.mapM (m.types[·]?)
  ((functions.drop m.importedFunctionCount).zip m.code).mapM fun (type, c) =>
    (Node.ofBody? m.types c.body).map (⟨type, c.localTypes [], ·, 0⟩)

namespace Instance

/-- Links a valid module with a host, with calls that take no cells. -/
def linkFreely (m : Module Code) (host : Host σ) : Option (Instance σ) :=
  match m.prepareFreely, m.imports.foldlM (bindImport host m.types) ⟨[], [], none⟩ with
  | some defined, .ok bound => some {
      functions := bound.functions.reverse ++ defined.map .defined
      exports := m.exports.filterMap fun e =>
        if e.kind == .func then some (e.name, e.index) else none
      memory := bound.memory }
  | _, _ => none

/-- Calls an export with at most `depth` calls inside each other, and as many cells as they take. -/
def execute [SingleArith] (i : Instance σ) (depth : Nat) (name : String) (args : List Value) :
    Run σ (List Value) :=
  match (i.exports.lookup name).bind (i.functions[·]?) with
  | none => throw .illTyped
  | some f =>
    if args.map (·.type) = f.type.params then
      callFunction i.functions depth ((depth + 1) * (i.functions.map (·.cells)).sum) f args
    else throw .badArguments

end Instance

/-! ## Binding imports -/

/-- The function of the host that an import is bound to. -/
def Host.offer (host : Host σ) (d : Declaration) : LinkedFunction σ :=
  .host d.name d.funcType ((host.find? d.name).getD fun _ => pure none)

namespace Instance

variable {host : Host σ} {types : List FuncType}

theorem bindImport_func {d : Declaration} {i : Nat} (offered : (host.find? d.name).isSome = true)
    (typed : types[i]? = some d.funcType) {b : Bound σ} (fresh : (hostModule, d.name) ∉ b.keys) :
    bindImport host types b ⟨hostModule, d.name, .func i⟩ =
      .ok ⟨(hostModule, d.name) :: b.keys, host.offer d :: b.functions, b.memory⟩ := by
  obtain ⟨run, found⟩ := Option.isSome_iff_exists.1 offered
  simp [bindImport, Host.offer, found, typed, fresh]

/-- Imports with different names are bound one after the other. -/
theorem foldlM_bindImport {entries : List (Nat × Declaration)}
    (offers : ∀ e ∈ entries, (host.find? e.2.name).isSome = true)
    (typed : ∀ e ∈ entries, types[e.1]? = some e.2.funcType)
    (distinct : (entries.map (·.2.name)).Nodup) (b : Bound σ)
    (fresh : ∀ e ∈ entries, (hostModule, e.2.name) ∉ b.keys) :
    (entries.map fun e => (⟨hostModule, e.2.name, .func e.1⟩ : Import)).foldlM
        (bindImport host types) b =
      .ok ⟨(entries.map fun e => (hostModule, e.2.name)).reverse ++ b.keys,
        (entries.map fun e => host.offer e.2).reverse ++ b.functions, b.memory⟩ := by
  induction entries generalizing b with
  | nil => rfl
  | cons e entries ih =>
    rw [List.forall_mem_cons] at offers typed fresh
    rw [List.map_cons, List.nodup_cons] at distinct
    rw [List.map_cons, List.foldlM_cons, bindImport_func offers.1 typed.1 fresh.1]
    refine (ih offers.2 typed.2 distinct.2 _ ?_).trans ?_
    · intro other mem
      rw [List.mem_cons, not_or]
      refine ⟨?_, fresh.2 other mem⟩
      intro same
      have name : other.2.name = e.2.name := congrArg Prod.snd same
      exact distinct.1 (name ▸ List.mem_map_of_mem mem)
    · simp

/-- A memory that a module can ask for is not too large. -/
theorem foldlM_bindImport_memory {memory : Option Limits}
    (fits : ∀ l, memory = some l → l.fitMemory = true) {b : Bound σ}
    (fresh : memory.isSome = true → (hostModule, memoryField) ∉ b.keys) :
    ∃ last, (memory.toList.map fun l =>
        (⟨hostModule, memoryField, .memory (.narrow l)⟩ : Import)).foldlM
          (bindImport host types) b = .ok last ∧ last.functions = b.functions ∧
        last.memory = memory.elim b.memory fun l => some l.minimum.toNat := by
  cases memory with
  | none => exact ⟨b, rfl, rfl, rfl⟩
  | some l =>
    have fit := fits l rfl
    simp only [Limits.fitMemory, Bool.and_eq_true, decide_eq_true_eq] at fit
    have pages : l.minimum.toNat ≤ 65536 := UInt32.le_iff_toNat_le.1 fit.1.2
    have small : ¬memorySizeBound ≤ (Extent.narrow l).minimum * pageSize := by
      show ¬0x10_0000_0000 ≤ l.minimum.toNat * 65536
      omega
    have new : (hostModule, memoryField) ∉ b.keys := fresh rfl
    exact ⟨⟨(hostModule, memoryField) :: b.keys, b.functions, some (Extent.narrow l).minimum⟩,
      by simp [bindImport, small, new], rfl, rfl⟩

end Instance

namespace ModuleDraft

variable {β : Type} {memory : Option Limits} {imports defined : List Declaration} {code : List β}
  {host : Host σ}

/-- Binding the imports of a module gives the functions of the host, in order, and the pages of the
memory. -/
theorem foldlM_bindImport_moduleOf (imported : ∀ d ∈ imports, d.isImport = true)
    (others : ∀ d ∈ defined, d.isImport = false)
    (offers : ∀ d ∈ imports, (host.find? d.name).isSome = true)
    (distinct : (imports.map (·.name)).Nodup)
    (free : memory.isSome = true → ∀ d ∈ imports, d.name ≠ memoryField)
    (fits : ∀ l, memory = some l → l.fitMemory = true) :
    ∃ bound, (moduleOf memory (imports ++ defined) code).imports.foldlM
        (Instance.bindImport host ((imports ++ defined).map (·.funcType))) ⟨[], [], none⟩ =
          .ok bound ∧ bound.functions.reverse = imports.map host.offer ∧
        bound.memory = memory.map (·.minimum.toNat) := by
  have names : (((List.range imports.length).zip imports).map (·.2.name)).Nodup := by
    rwa [map_zip_range Declaration.name]
  have functions := Instance.foldlM_bindImport
    (fun e mem => offers e.2 (List.of_mem_zip mem).2)
    (fun _ => getElem?_funcType_of_mem defined) names ⟨[], [], none⟩ (by simp)
  have fresh : memory.isSome = true → (hostModule, memoryField) ∉
      (((List.range imports.length).zip imports).map fun e =>
        (hostModule, e.2.name)).reverse ++ [] := by
    intro set
    simp only [List.append_nil, List.mem_reverse, List.mem_map, not_exists, not_and]
    intro e mem same
    exact free set e.2 (List.of_mem_zip mem).2 (congrArg Prod.snd same)
  obtain ⟨last, bound, kept, pages⟩ := Instance.foldlM_bindImport_memory fits
    (b := ⟨_, (imports.map host.offer).reverse ++ [], none⟩) fresh
  refine ⟨last, ?_, by simp [kept], ?_⟩
  · rw [imports_moduleOf imported others, List.foldlM_append, functions, map_zip_range host.offer]
    exact bound
  · rw [pages]
    cases memory <;> rfl

end ModuleDraft

/-! ## The functions of an emitted module -/

namespace Program

open ModuleDraft

variable {p : Program} {n : Numbering} {o : EmitOptions} {imports defined : List Declaration}
  {host : Host σ}

/-- The function is the lowered one, whatever number of cells it takes. -/
def IsReady (p : Program) (n : Numbering) (f : FuncRef) (d : Declaration) (g : DefinedFunction) :
    Prop :=
  ∃ cells, g = (⟨p, f, d⟩ : Scope).ready n (d.body.getD (.block [])) cells

/-- The defined functions come after the imports. -/
theorem definedRefs_eq_drop (accepts : Accepts p n o imports defined) :
    definedRefs n (imports ++ defined) = (n.refs.zip (imports ++ defined)).drop imports.length := by
  have size := length_refs_eq accepts.refs
  rw [List.length_append] at size
  have split : n.refs.zip (imports ++ defined) =
      (n.refs.take imports.length).zip imports ++ (n.refs.drop imports.length).zip defined := by
    rw [← List.zip_append (by rw [List.length_take]; omega), List.take_append_drop]
  have noImport : ∀ d ∈ imports, (!d.isImport) = false := by simpa using accepts.imported
  have allDefined : ∀ d ∈ defined, (!d.isImport) = true := by simpa using accepts.defined
  rw [definedRefs, split, List.filter_append, filter_zip_eq_nil noImport,
    filter_zip_eq_self allDefined, List.nil_append, List.drop_left']
  rw [List.length_zip, List.length_take]
  omega

/-- The functions of the host and the lowered ones, one after the other, are those of the
program. -/
theorem serves_emitted (complete : n.Complete) (accepts : Accepts p n o imports defined)
    (offers : ∀ d ∈ imports, (host.find? d.name).isSome = true)
    (bodies : ∀ e ∈ definedRefs n (imports ++ defined), p.HasBody e.1 e.2 ∧
      (e.2.result ≠ .void → ∃ body, e.2.body = some body ∧ body.Returns))
    {ready : List DefinedFunction}
    (each : ∀ (k : Nat) (e : FuncRef × Declaration),
      (definedRefs n (imports ++ defined))[k]? = some e →
      ∃ g, ready[k]? = some g ∧ p.IsReady n e.1 e.2 g) :
    Serves p n host (imports.map host.offer ++ ready.map .defined) := by
  have numbered := accepts.numberedBy complete
  constructor
  · intro g d known imported
    have at_g := getElem?_number numbered accepts.refs known
    by_cases before : n.number g < imports.length
    · rw [List.getElem?_append_left before] at at_g
      obtain ⟨run, found⟩ := Option.isSome_iff_exists.1 (offers d (List.mem_of_getElem? at_g))
      refine ⟨run, found, ?_⟩
      rw [List.getElem?_append_left (by rwa [List.length_map]), List.getElem?_map, at_g,
        Option.map_some, Host.offer, found, Option.getD_some]
    · rw [List.getElem?_append_right (by omega)] at at_g
      have := accepts.defined d (List.mem_of_getElem? at_g)
      simp [imported] at this
  · intro g d known isDefined
    have at_g := getElem?_number numbered accepts.refs known
    by_cases before : n.number g < imports.length
    · rw [List.getElem?_append_left before] at at_g
      have := accepts.imported d (List.mem_of_getElem? at_g)
      simp [isDefined] at this
    · obtain ⟨i, index⟩ := Option.isSome_iff_exists.1 (numbered g d known)
      have place : n.refs[n.number g]? = some g := by
        rw [Numbering.number, index, Option.getD_some]
        exact Numbering.getElem?_refs_of_indexOf? index
      have entry : (definedRefs n (imports ++ defined))[n.number g - imports.length]? =
          some (g, d) := by
        rw [definedRefs_eq_drop accepts, List.getElem?_drop, Nat.add_sub_cancel' (by omega)]
        exact List.getElem?_zip_eq_some.2 ⟨place, at_g⟩
      obtain ⟨⟨body, has, typed⟩, returns⟩ := bodies (g, d) (List.mem_of_getElem? entry)
      obtain ⟨_, at_ready, cells, rfl⟩ := each _ _ entry
      rw [has, Option.getD_some] at at_ready
      refine ⟨body, cells, has, typed, ?_, ?_⟩
      · intro value
        obtain ⟨_, has', here⟩ := returns value
        rwa [Option.some.inj (has.symm.trans has')]
      · rw [List.getElem?_append_right (by rw [List.length_map]; omega), List.length_map,
          List.getElem?_map, at_ready, Option.map_some]

/-- The bodies of an emitted module, with their types. -/
theorem zip_code_emitted (accepts : Accepts p n o imports defined) :
    (((imports ++ defined).map (·.funcType)).drop
        (p.emitted n o (imports ++ defined)).importedFunctionCount).zip
          (p.emitted n o (imports ++ defined)).code =
      (definedRefs n (imports ++ defined)).map fun e => (e.2.funcType, p.codeOf n e.1 e.2) := by
  rw [emitted, drop_types_moduleOf accepts.imported accepts.defined, map_funcType_defined accepts]
  exact List.zip_map' ..

theorem isReady_of_mapM {make : FuncType × Code → Option DefinedFunction}
    (made : ∀ f d g, make (d.funcType, p.codeOf n f d) = some g → p.IsReady n f d g)
    {entries : List (FuncRef × Declaration)} {ready : List DefinedFunction}
    (all : (entries.map fun e => (e.2.funcType, p.codeOf n e.1 e.2)).mapM make = some ready)
    (k : Nat) (e : FuncRef × Declaration) (at_k : entries[k]? = some e) :
    ∃ g, ready[k]? = some g ∧ p.IsReady n e.1 e.2 g := by
  have here := congrArg (·[k]?) (mapM_eq_some.1 all)
  simp only [List.getElem?_map, at_k, Option.map_some] at here
  cases found : ready[k]? with
  | none => simp [found] at here
  | some g =>
    rw [found, Option.map_some, Option.some.injEq] at here
    exact ⟨g, rfl, made e.1 e.2 g here⟩

/-- What a plan of cells is made for is ready to run. -/
theorem isReady_prepare [SingleArith] (accepts : Accepts p n o imports defined)
    {ready : List DefinedFunction}
    (prepared : (p.emitted n o (imports ++ defined)).prepare = some ready) (k : Nat)
    (e : FuncRef × Declaration) (at_k : (definedRefs n (imports ++ defined))[k]? = some e) :
    ∃ g, ready[k]? = some g ∧ p.IsReady n e.1 e.2 g := by
  rw [Module.prepare, Option.bind_eq_bind, emitted,
    mapM_types_moduleOf accepts.imported accepts.defined, Option.bind_some, ← emitted,
    zip_code_emitted accepts] at prepared
  refine isReady_of_mapM ?_ prepared k e at_k
  intro f d g made
  simp only [DefinedFunction.ofCode?, Option.bind_eq_bind, Option.bind_eq_some_iff] at made
  obtain ⟨cells, -, nodes, structured, ⟨⟩⟩ := made
  rw [codeOf, Scope.ofBody?_code, Option.some.injEq] at structured
  exact ⟨cells, by rw [← structured]; rfl⟩

/-- Without a plan, every function of an emitted module is ready to run. -/
theorem prepareFreely_emitted (accepts : Accepts p n o imports defined) :
    (p.emitted n o (imports ++ defined)).prepareFreely =
      some ((definedRefs n (imports ++ defined)).map fun e =>
        (⟨p, e.1, e.2⟩ : Scope).ready n (e.2.body.getD (.block [])) 0) := by
  rw [Module.prepareFreely, Option.bind_eq_bind, emitted,
    mapM_types_moduleOf accepts.imported accepts.defined, Option.bind_some, ← emitted,
    zip_code_emitted accepts, mapM_eq_some, List.map_map, List.map_map]
  refine List.map_congr_left ?_
  intro e _
  show (Node.ofBody? _ (p.codeOf n e.1 e.2).body).map _ = _
  rw [codeOf, Scope.ofBody?_code]
  rfl

/-- An export is found by its name. -/
theorem lookup_export (tidy : p.Tidy) (complete : n.Complete)
    (accepts : Accepts p n o imports defined) {f : FuncRef} {d : Declaration}
    (known : p.get? f = some d) (exported : d.isExport = true) :
    ((p.emitted n o (imports ++ defined)).exports.filterMap fun e =>
      if e.kind == .func then some (e.name, e.index) else none).lookup d.name =
        some (n.number f) := by
  have functions : (p.emitted n o (imports ++ defined)).exports.filterMap (fun e =>
      if e.kind == .func then some (e.name, e.index) else none) =
        (p.emitted n o (imports ++ defined)).exports.map fun e => (e.name, e.index) := by
    rw [← List.filterMap_eq_map]
    refine List.filterMap_congr ?_
    intro e mem
    obtain ⟨t, -, d, -, -, rfl⟩ := mem_exports mem
    rfl
  have distinct : (((p.emitted n o (imports ++ defined)).exports.map
      fun e => (e.name, e.index)).map Prod.fst).Nodup := by
    rw [List.map_map]
    show ((ModuleDraft.exports _).map (·.name)).Nodup
    rw [map_name_exports]
    exact nodup_names complete accepts.refs tidy.exports
  have mem : (d.name, n.number f) ∈
      (p.emitted n o (imports ++ defined)).exports.map fun e => (e.name, e.index) := by
    have at_f := getElem?_number (accepts.numberedBy complete) accepts.refs known
    obtain ⟨lt, -⟩ := List.getElem?_eq_some_iff.1 at_f
    have entry :
        (n.number f, d) ∈ (List.range (imports ++ defined).length).zip (imports ++ defined) :=
      List.mem_of_getElem? (List.getElem?_zip_eq_some.2 ⟨List.getElem?_range lt, at_f⟩)
    have export_f :
        ⟨d.name, .func, n.number f⟩ ∈ (p.emitted n o (imports ++ defined)).exports := by
      show _ ∈ ModuleDraft.exports _
      rw [exports_eq]
      exact List.mem_map.2 ⟨_, List.mem_filter.2 ⟨entry, exported⟩, rfl⟩
    exact List.mem_map.2 ⟨_, export_f, rfl⟩
  rw [functions]
  exact (lookup_eq_some_iff_of_nodup distinct).2 mem

end Program

/-! ## Instances of an emitted module -/

/-- When linking succeeds, and with what instance. -/
theorem Instance.link_eq_ok [SingleArith] {m : Module Code} {host : Host σ} {i : Instance σ} :
    link m host = .ok i ↔
      ∃ ready bound, m.prepare = some ready ∧
        m.imports.foldlM (bindImport host m.types) ⟨[], [], none⟩ = .ok bound ∧
        i = ⟨bound.functions.reverse ++ ready.map .defined, m.exports.filterMap fun e =>
          if e.kind == .func then some (e.name, e.index) else none, bound.memory⟩ := by
  unfold link
  cases m.prepare with
  | none => simp
  | some ready =>
    dsimp only
    rw [bind_eq_ok]
    constructor
    · rintro ⟨bound, imported, ⟨⟩⟩
      exact ⟨ready, bound, rfl, imported, rfl⟩
    · rintro ⟨_, bound, ⟨⟩, imported, rfl⟩
      exact ⟨bound, imported, rfl⟩

/-- The functions of the instance are those of the program, and it exports what the program
exports. -/
structure Instance.Represents (i : Instance σ) (p : Program) (n : Numbering) (host : Host σ) :
    Prop where
  /-- The functions. -/
  serves : Serves p n host i.functions
  /-- The exports. -/
  exports : ∀ f d, p.get? f = some d → d.isExport = true →
    i.exports.lookup d.name = some (n.number f)

namespace Program

open ModuleDraft

variable {p : Program} {n : Numbering} {o : EmitOptions} {imports defined : List Declaration}
  {host : Host σ} (tidy : p.Tidy) (complete : n.Complete) (accepts : Accepts p n o imports defined)
  (fits : ∀ l, o.memory = some l → l.fitMemory = true)
  (bodies : ∀ e ∈ definedRefs n (imports ++ defined), p.HasBody e.1 e.2 ∧
    (e.2.result ≠ .void → ∃ body, e.2.body = some body ∧ body.Returns))
  (offers : ∀ f d, p.get? f = some d → d.isImport = true → (host.find? d.name).isSome = true)

include accepts offers in
theorem offers_imports : ∀ d ∈ imports, (host.find? d.name).isSome = true := by
  intro d mem
  obtain ⟨f, known⟩ := exists_get? accepts.refs (List.mem_append_left defined mem)
  exact offers f d known (accepts.imported d mem)

include tidy complete accepts in
theorem nodup_imports : (imports.map (·.name)).Nodup := by
  have distinct := nodup_names complete accepts.refs tidy.imports
  rwa [filter_isImport accepts] at distinct

include tidy complete accepts fits offers in
/-- A host that offers all imports can be bound. -/
theorem exists_bound :
    ∃ bound, (p.emitted n o (imports ++ defined)).imports.foldlM
        (Instance.bindImport host (p.emitted n o (imports ++ defined)).types) ⟨[], [], none⟩ =
          .ok bound ∧ bound.functions.reverse = imports.map host.offer ∧
        bound.memory = o.memory.map (·.minimum.toNat) := by
  refine foldlM_bindImport_moduleOf accepts.imported accepts.defined
    (offers_imports accepts offers) (nodup_imports tidy complete accepts) ?_ fits
  intro set d mem name
  obtain ⟨f, known⟩ := exists_get? accepts.refs (List.mem_append_left defined mem)
  have taken := hasImport_iff.2 ⟨f, d, known, accepts.imported d mem, name⟩
  rw [accepts.memory set] at taken
  cases taken

include tidy complete accepts fits offers in
/-- An emitted module has an instance exactly when there is a plan for all its bodies. -/
theorem link_emitted [SingleArith] :
    (∃ i, Instance.link (p.emitted n o (imports ++ defined)) host = .ok i) ↔
      (p.emitted n o (imports ++ defined)).prepare.isSome = true := by
  obtain ⟨bound, imported, -⟩ := exists_bound tidy complete accepts fits offers
  rw [Instance.link, imported]
  cases (p.emitted n o (imports ++ defined)).prepare with
  | none => simp
  | some ready => exact ⟨fun _ => rfl, fun _ => ⟨_, rfl⟩⟩

include tidy complete accepts fits bodies offers

/-- Without a plan of cells, an emitted module has an instance. -/
theorem linkFreely_emitted :
    ∃ i, Instance.linkFreely (p.emitted n o (imports ++ defined)) host = some i ∧
      i.Represents p n host := by
  obtain ⟨bound, imported, functions, -⟩ := exists_bound tidy complete accepts fits offers
  rw [Instance.linkFreely, prepareFreely_emitted accepts, imported]
  refine ⟨_, rfl, ?_, fun f d known exported => lookup_export tidy complete accepts known exported⟩
  show Serves p n host (bound.functions.reverse ++ _)
  rw [functions]
  refine serves_emitted complete accepts (offers_imports accepts offers) bodies ?_
  intro k e at_k
  exact ⟨_, by rw [List.getElem?_map, at_k, Option.map_some], 0, rfl⟩

theorem represents_of_link [SingleArith] {i : Instance σ}
    (linked : Instance.link (p.emitted n o (imports ++ defined)) host = .ok i) :
    i.Represents p n host := by
  obtain ⟨bound, imported, functions, -⟩ := exists_bound tidy complete accepts fits offers
  obtain ⟨ready, _, prepared, imported', rfl⟩ := Instance.link_eq_ok.1 linked
  obtain rfl := Except.ok.inj (imported.symm.trans imported')
  refine ⟨?_, fun f d known exported => lookup_export tidy complete accepts known exported⟩
  show Serves p n host (bound.functions.reverse ++ _)
  rw [functions]
  exact serves_emitted complete accepts (offers_imports accepts offers) bodies
    (isReady_prepare accepts prepared)

omit tidy complete fits bodies offers in
/-- An instance exports nothing that the program does not export. -/
theorem exported_of_link [SingleArith] {i : Instance σ}
    (linked : Instance.link (p.emitted n o (imports ++ defined)) host = .ok i) {name : String}
    {k : Nat} (found : i.exports.lookup name = some k) :
    ∃ f d, p.get? f = some d ∧ d.isExport = true ∧ d.name = name := by
  obtain ⟨ready, bound, -, -, rfl⟩ := Instance.link_eq_ok.1 linked
  obtain ⟨before, after, split, -⟩ := List.lookup_eq_some_iff.1 found
  have mem : (name, k) ∈ (p.emitted n o (imports ++ defined)).exports.filterMap fun e =>
      if e.kind == .func then some (e.name, e.index) else none := by
    rw [show List.filterMap _ _ = _ from split]
    simp
  obtain ⟨e, here, entry⟩ := List.mem_filterMap.1 mem
  obtain ⟨t, -, d, declared, exported, rfl⟩ := mem_exports here
  obtain ⟨f, known⟩ := exists_get? accepts.refs declared
  exact ⟨f, d, known, exported, congrArg Prod.fst (Option.some.inj entry)⟩

end Program

/-! ## Exports -/

namespace Instance

variable [SingleArith]

/-- Calling an export is calling the function with its index. -/
theorem run_call {i : Instance σ} {name : String} {index : Nat}
    (exported : i.exports.lookup name = some index) (args : List Scalar) (st : σ) :
    (i.call name args).run st =
      match (i.invoke index (args.map .ofScalar)).run.run st with
      | (.ok results, st') => (.ok (results.head?.bind Value.scalar?), st')
      | (.error t, st') => (.error (.trapped name t), st') := by
  rw [call, exported]
  dsimp only
  rw [StateT.run_bind]
  rcases (i.invoke index (args.map .ofScalar)).run.run st with ⟨_ | _, _⟩ <;> rfl

/-- Without a start function, instantiation is linking. -/
theorem run_ofBytes_eq_ok {bs : Bytes} {m : Module Code} (read : Module.ofBytes? bs = some m)
    (noStart : m.start = none) {host : Host σ} {i : Instance σ} {st after : σ} :
    (ofBytes bs host).run st = (.ok i, after) ↔ link m host = .ok i ∧ after = st := by
  rw [ofBytes, read]
  dsimp only
  cases link m host with
  | error e =>
    constructor
    · rintro ⟨⟩
    · rintro ⟨⟨⟩, -⟩
  | ok j =>
    dsimp only
    rw [noStart]
    constructor
    · rintro ⟨⟩
      exact ⟨rfl, rfl⟩
    · rintro ⟨⟨⟩, rfl⟩
      rfl

omit [SingleArith] in
/-- The runner has room for all calls inside each other that take at most 127 cells. -/
theorem roomy_maxCells {functions : List (LinkedFunction σ)} {results : Nat} (one : results ≤ 1)
    (small : ¬∃ g ∈ functions, 127 < g.cells) :
    LinkedFunction.Roomy functions maxCallDepth (maxCells - results) := by
  refine ⟨127, ?_, ?_⟩
  · intro g mem
    by_contra large
    exact small ⟨g, mem, Nat.lt_of_not_le large⟩
  · have : (maxCallDepth + 1) * 127 ≤ maxCells - 1 := by decide
    omega

end Instance

namespace Instance.Represents

variable [SingleArith] {i : Instance σ} {p : Program} {n : Numbering} {host : Host σ} {f : FuncRef}
  {d : Declaration} {args : List Scalar} (represents : i.Represents p n host) (tidy : p.Tidy)
  (known : p.get? f = some d) (exported : d.isExport = true) (takes : d.Takes args)

include represents tidy known exported takes

/-- With as many cells as it takes, an export gives what the evaluation gives. -/
theorem follows_execute (depth : Nat) :
    Follows False (Gives d.result) (i.execute depth d.name (args.map .ofScalar))
      (p.evaluate host depth f args) := by
  have room : LinkedFunction.Roomy i.functions depth
      ((depth + 1) * (i.functions.map (·.cells)).sum) :=
    ⟨_, fun g mem => List.le_sum_of_mem (List.mem_map_of_mem mem), Nat.le_refl _⟩
  obtain ⟨g, at_f, type, follows⟩ := represents.serves.follows_call tidy depth (fun _ => room) known
  have fits : (args.map Value.ofScalar).map (·.type) = g.type.params := type ▸ takes
  rw [execute, represents.exports f d known exported, Option.bind_some, at_f]
  dsimp only
  rw [if_pos fits]
  exact follows args takes

/-- The runner gives what the evaluation gives, or has too few cells; the latter only if a function
takes more than 127 of them. -/
theorem call_eq (st : σ) :
    (i.call d.name args).run st =
        (Except.mapError (.trapped d.name) <$> (p.evaluate host maxCallDepth f args).run).run st ∨
      (∃ g ∈ i.functions, 127 < g.cells) ∧
        ∃ st', (i.call d.name args).run st = (.error (.trapped d.name .cellsExhausted), st') := by
  have results : d.funcType.results.length ≤ 1 := by
    show d.result.valType?.toList.length ≤ 1
    cases d.result <;> decide
  obtain ⟨g, at_f, type, follows⟩ := represents.serves.follows_call tidy maxCallDepth
    (roomy_maxCells results) known
  have fits : (args.map Value.ofScalar).map (·.type) = g.type.params := type ▸ takes
  have invoked : i.invoke (n.number f) (args.map .ofScalar) = callFunction i.functions maxCallDepth
      (maxCells - d.funcType.results.length) g (args.map .ofScalar) := by
    rw [invoke, at_f]
    dsimp only
    rw [if_pos fits, type]
  have mapped : (Except.mapError (CallError.trapped d.name) <$>
      (p.evaluate host maxCallDepth f args).run).run st =
        match (p.evaluate host maxCallDepth f args).run.run st with
        | (r, st') => (r.mapError (.trapped d.name), st') := rfl
  have ends := follows args takes st
  rw [run_call (represents.exports f d known exported), invoked, mapped]
  generalize (callFunction i.functions maxCallDepth _ g (args.map .ofScalar)).run.run st = x,
    (p.evaluate host maxCallDepth f args).run.run st = y at ends ⊢
  cases ends with
  | value given =>
    obtain ⟨rfl, -⟩ := given
    rename_i v st'
    left
    cases v <;> simp [Value.results, Except.mapError]
  | trap expected => exact .inl rfl
  | exhausted large => exact .inr ⟨large, _, rfl⟩

end Instance.Represents

/-- On every host that offers the imports of a program, an export of the finished module and the
exported function of the program do the same, for arguments of its parameter types: they end with
the same result or the same trap and leave the host in the same state, to any depth of calls inside
each other and whatever the arithmetic on single-precision numbers that they share.  A trap has to
do with that depth or with an answer of the host.  The runner needs a plan of cells for the module,
and then does the same, too, unless it runs out of cells. -/
theorem Program.export_computes [SingleArith] {p q : Program} {n : Numbering} {o : EmitOptions}
    {first last : ModuleDraft} {fs : List FuncRef} {bs : Bytes} (built : p.Built)
    (drawn : n.Drawn q) (started : ModuleDraft.start p n o = .ok first)
    (lowered : fs.foldlM p.addLowered first = .ok last) (finished : last.finish = .ok bs)
    {host : Host σ}
    (offers : ∀ f d, p.get? f = some d → d.isImport = true → (host.find? d.name).isSome = true)
    {f : FuncRef} {d : Declaration} (known : p.get? f = some d) (exported : d.isExport = true)
    {args : List Scalar} (takes : (args.map Value.ofScalar).map Value.type = d.funcType.params) :
    ∃ m, Module.ofBytes? bs = some m ∧
      (∃ i, Instance.linkFreely m host = some i ∧ ∀ depth,
        i.execute depth d.name (args.map .ofScalar) =
          Value.results <$> p.evaluate host depth f args) ∧
      (∀ depth st t, ((p.evaluate host depth f args).run.run st).1 = .error t → t.Expected) ∧
      (∀ st, (∃ i, (Instance.ofBytes bs host).run st = (.ok i, st)) ↔ m.prepare.isSome = true) ∧
      ∀ i start after, (Instance.ofBytes bs host).run start = (.ok i, after) → ∀ st,
        (i.call d.name args).run st =
            (Except.mapError (.trapped d.name) <$>
              (p.evaluate host Instance.maxCallDepth f args).run).run st ∨
          (∃ g ∈ i.functions, 127 < g.cells) ∧
            ∃ st', (i.call d.name args).run st =
              (.error (.trapped d.name .cellsExhausted), st') := by
  have tidy := built.tidy
  have complete := drawn.complete
  obtain ⟨imports, defined, accepts, read, fits, bodies⟩ :=
    emitted_of_finish tidy complete started lowered finished
  obtain ⟨free, linked, represents⟩ :=
    linkFreely_emitted tidy complete accepts fits bodies offers
  have follows := represents.follows_execute tidy known exported takes
  refine ⟨p.emitted n o (imports ++ defined), read, ⟨free, linked, ?_⟩, ?_, ?_, ?_⟩
  · intro depth
    exact (follows depth).eq_map fun _ _ gives => gives.1
  · intro depth st t trapped
    exact (follows depth).expected (Prod.ext trapped rfl)
  · intro st
    rw [← link_emitted tidy complete accepts fits offers]
    simp only [Instance.run_ofBytes_eq_ok read rfl, and_true]
  · intro i start after made st
    obtain ⟨link, -⟩ := (Instance.run_ofBytes_eq_ok read rfl).1 made
    exact (represents_of_link tidy complete accepts fits bodies offers link).call_eq tidy known
      exported takes st

/-- Whether a host offers all imports can be found out by looking at each declaration. -/
theorem Program.offers_of_all {p : Program} {host : Host σ}
    (all : (p.refs.all fun f => (p.get? f).all fun d =>
      !d.isImport || (host.find? d.name).isSome) = true) (f : FuncRef) (d : Declaration)
    (known : p.get? f = some d) (imported : d.isImport = true) :
    (host.find? d.name).isSome = true := by
  have := forall_of_all (fun _ d => !d.isImport || (host.find? d.name).isSome) all f d known
  simpa [imported] using this

/-- A host that writes down what is logged. -/
def Host.logging : Host (List Scalar) :=
  Host.empty.define "log" fun args => do
    modify (· ++ args)
    return none

/-- The module of `Program.sample` in the order of `Numbering.sample`, its bodies added last to
first. -/
def Program.sampleModule : Except EmitError Bytes :=
  [⟨7, 2⟩, ⟨7, 0⟩].foldlM sample.addLowered ⟨sample, .sample, ⟨none⟩, []⟩ >>= ModuleDraft.finish

theorem Program.export_computes_sample :
    ∃ bs m i, sampleModule = .ok bs ∧ Module.ofBytes? bs = some m ∧
      Instance.linkFreely m Host.logging = some i ∧
      (i.execute 2 "run" [.i32 20, .f32 .one]).run.run [] = (.ok [.i32 42], [.float .one]) := by
  obtain ⟨bs, done⟩ : ∃ bs, sampleModule = .ok bs := exists_eq_ok_of_toBool (by decide +kernel)
  obtain ⟨last, lowered, finished⟩ := bind_eq_ok.1 done
  have started : ModuleDraft.start sample .sample ⟨none⟩ = .ok ⟨sample, .sample, ⟨none⟩, []⟩ := by
    cbv
  have offers : ∀ f d, sample.get? f = some d → d.isImport = true →
      (Host.logging.find? d.name).isSome = true := offers_of_all (by decide +kernel)
  have takes : ([.int 20, .float .one].map Value.ofScalar).map Value.type = [.i32, .f32] := rfl
  obtain ⟨m, read, ⟨i, linked, computes⟩, -⟩ := export_computes built_sample
    Numbering.drawn_sample started lowered finished offers (f := ⟨7, 0⟩) rfl rfl takes
  refine ⟨bs, m, i, done, read, linked, ?_⟩
  calc (i.execute 2 "run" [.i32 20, .f32 .one]).run.run []
      = (Value.results <$> sample.evaluate Host.logging 2 ⟨7, 0⟩
          [.int 20, .float .one]).run.run [] := congrArg (·.run.run []) (computes 2)
    _ = (.ok [.i32 42], [.float .one]) := by rfl

end WasmForge

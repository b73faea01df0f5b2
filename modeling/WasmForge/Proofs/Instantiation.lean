import Mathlib
import WasmForge.Proofs.CellPlans
import WasmForge.Proofs.Execution

/-!
# Instances of compiled programs

A compiled program has an instance on exactly those hosts that offer all of its imports, and on any
other host the first import that is lacking is named.  Nothing else can go wrong, as long as there
is a plan of cells for every body.  The memory of the instance is the one of the options.

* `Program.Planned`, `Program.planned_of_short`: every body has a plan.
* `Instr.reachesMemory_encode`: no instruction reaches a memory.
* `Instance.memoryAfter`: the memory of an instance after some calls.
* `Program.instantiates`: when there is an instance, and what is wrong otherwise.
-/

namespace WasmForge

open ModuleDraft

variable {σ : Type}

/-! ## Plans -/

theorem isSome_mapM {α β : Type} {f : α → Option β} {as : List α} :
    (as.mapM f).isSome = true ↔ ∀ a ∈ as, (f a).isSome = true := by
  induction as with
  | nil => simp
  | cons a as ih =>
    rw [List.mapM_cons, List.forall_mem_cons, ← ih]
    cases f a <;> cases as.mapM f <;> simp

namespace Program

variable {p : Program} {o : EmitOptions} {imports defined : List Declaration}

/-- There is a plan of cells for every function that the program defines. -/
def Planned [SingleArith] (p : Program) : Prop :=
  ∀ f d, p.get? f = some d → d.isImport = false →
    (CellPlan.cells? ⟨p.listed.map (·.funcType), ((p.listed.map (·.funcType))[·]?),
        d.funcType.results.length⟩
      ((p.codeOf p.usual f d).localCount d.funcType.params)
      (p.codeOf p.usual f d).body).isSome = true

theorem listed_eq (accepts : Accepts p p.usual o imports defined) :
    p.listed = imports ++ defined := by
  refine List.map_injective_iff.2 (Option.some_injective _) ?_
  rw [← accepts.refs, refs_usual, listed, map_get?_of_owns fun f mem => mem_numbered.1 mem]

/-- The imports come in the order of their declarations. -/
theorem imports_eq_filter (accepts : Accepts p p.usual o imports defined) :
    imports = p.decls.toList.filter (·.isImport) := by
  obtain ⟨_, split, accepts'⟩ := accepts_usual accepts.memory
  rw [← filter_isImport accepts, ← listed_eq accepts, split, filter_isImport accepts']

/-- An emitted module can be made ready to run exactly when there are plans. -/
theorem prepare_isSome_iff [SingleArith] (accepts : Accepts p p.usual o imports defined) :
    (p.emitted p.usual o (imports ++ defined)).prepare.isSome = true ↔ p.Planned := by
  have each : ∀ e : FuncRef × Declaration,
      (DefinedFunction.ofCode? ((imports ++ defined).map (·.funcType))
        ((imports ++ defined).map (·.funcType)) e.2.funcType (p.codeOf p.usual e.1 e.2)).isSome =
      (CellPlan.cells? ⟨p.listed.map (·.funcType), ((p.listed.map (·.funcType))[·]?),
        e.2.funcType.results.length⟩ ((p.codeOf p.usual e.1 e.2).localCount e.2.funcType.params)
        (p.codeOf p.usual e.1 e.2).body).isSome := by
    intro e
    rw [listed_eq accepts, DefinedFunction.ofCode?, codeOf, Scope.ofBody?_code]
    generalize CellPlan.cells? _ _ _ = cells
    cases cells <;> rfl
  rw [Module.prepare, Option.bind_eq_bind, emitted,
    mapM_types_moduleOf accepts.imported accepts.defined, Option.bind_some, ← emitted,
    zip_code_emitted accepts, isSome_mapM, List.forall_mem_map]
  constructor
  · intro all f d known isDefined
    have mem : f ∈ p.usual.refs := by
      rw [refs_usual, mem_numbered]
      exact Option.isSome_iff_exists.2 ⟨d, known⟩
    rw [← each (f, d)]
    exact all (f, d) ((mem_definedRefs accepts.refs).2 ⟨mem, known, isDefined⟩)
  · intro planned e mem
    obtain ⟨-, known, isDefined⟩ := (mem_definedRefs accepts.refs).1 mem
    exact (each e).trans (planned e.1 e.2 known isDefined)

/-- If every body, with its locals, is shorter than the number of cells, there are plans. -/
theorem planned_of_short [SingleArith]
    (short : ∀ f d, p.get? f = some d → d.isImport = false →
      (p.codeOf p.usual f d).localCount d.funcType.params + (p.codeOf p.usual f d).body.length <
        CellPlan.cellBound) : p.Planned := by
  have one : ∀ d : Declaration, d.funcType.results.length ≤ 1 := by
    intro d
    show d.result.valType?.toList.length ≤ 1
    cases d.result <;> decide
  obtain ⟨defined, split, accepts⟩ := accepts_usual (p := p) (o := ⟨none⟩) (by simp)
  have refs := split ▸ accepts.refs
  intro f d known isDefined
  refine CellPlan.cells?_isSome_of_short (one d) ?_ (short f d known isDefined)
  intro i mem
  rcases List.mem_append.1 mem with mem | mem
  · obtain ⟨j, here, rfl⟩ := List.mem_map.1 mem
    have knows := Scope.within_stmt (s := ⟨p, f, d⟩) _ j here
    obtain ⟨o, rfl, noBranch⟩ := knows.straight
    refine .op ((Op.branch?_relabel ..).trans noBranch) ?_
    intro k call
    cases o with
    | call g =>
      cases call
      obtain ⟨e, callee⟩ := knows.callees g rfl
      refine ⟨e.funcType, ?_, one e⟩
      show (p.listed.map (·.funcType))[p.usual.number g]? = _
      rw [List.getElem?_map, getElem?_number (accepts.numberedBy (complete_usual p)) refs callee]
      rfl
    | _ => cases call
  · cases List.mem_singleton.1 mem
    exact .close

end Program

/-! ## Instances -/

/-- Can an instruction with this opcode read, write or grow a memory?  So can the loads, the stores
and the two that ask for the size and for more, and all those whose opcode has a second part. -/
def reachesMemory (opcode : UInt8) : Bool := 0x28 ≤ opcode && opcode ≤ 0x40 || 0xFC ≤ opcode

theorem Instr.reachesMemory_encode (i : Instr Nat Nat) {opcode : UInt8}
    (first : opcode ∈ i.encode.head?) : reachesMemory opcode = false := by
  cases i with
  | op o =>
    cases o with
    | i32Arith op | f32Arith op =>
      cases op <;>
      · cases first
        decide
    | _ =>
      cases first
      decide
  | _ =>
    cases first
    decide

namespace Instance

variable {host : Host σ} {types : List FuncType}

/-- Binding goes on up to the first function that the host lacks. -/
theorem foldlM_bindImport_missing {entries : List (Nat × Declaration)}
    (offers : ∀ e ∈ entries, (host.find? e.2.name).isSome = true)
    (typed : ∀ e ∈ entries, types[e.1]? = some e.2.funcType)
    (distinct : (entries.map (·.2.name)).Nodup) {i : Import} {k : Nat} (function : i.kind = .func k)
    (lacking : host.find? i.name = none) (rest : List Import) :
    ((entries.map fun e => (⟨hostModule, e.2.name, .func e.1⟩ : Import)) ++ i :: rest).foldlM
        (bindImport host types) ⟨[], [], none⟩ = .error (.missingImport i.name) := by
  have stops : ∀ b, bindImport host types b i = .error (.missingImport i.name) := by
    intro b
    simp [bindImport, function, lacking]
  rw [List.foldlM_append, foldlM_bindImport offers typed distinct _ (by simp)]
  show (i :: rest).foldlM (bindImport host types) _ = _
  rw [List.foldlM_cons, stops]
  rfl

/-- Makes an instance, calls exports one after the other, and asks for the memory then. -/
def memoryAfter [SingleArith] (bs : Bytes) (host : Host σ) (calls : List (String × List Scalar)) :
    StateM σ (Except InstanceError (Bool × Option Nat)) := do
  match ← ofBytes bs host with
  | .error e => return .error e
  | .ok i =>
    let _ ← calls.mapM fun (name, args) => i.call name args
    return .ok (i.hasMemory, i.memorySize)

theorem run_memoryAfter [SingleArith] {bs : Bytes} {i : Instance σ} {st after : σ}
    (made : (ofBytes bs host).run st = (.ok i, after)) (calls : List (String × List Scalar)) :
    ((memoryAfter bs host calls).run st).1 = .ok (i.hasMemory, i.memorySize) := by
  rw [memoryAfter, StateT.run_bind, made]
  rfl

end Instance

namespace Program

variable {p : Program} {o : EmitOptions} {imports defined : List Declaration} {host : Host σ}

/-- Linking stops at the first import that the host lacks. -/
theorem link_missing [SingleArith] (tidy : p.Tidy) (accepts : Accepts p p.usual o imports defined)
    (planned : p.Planned) {d : Declaration}
    (first : imports.find? (fun d => (host.find? d.name).isNone) = some d) :
    Instance.link (p.emitted p.usual o (imports ++ defined)) host =
      .error (.missingImport d.name) := by
  obtain ⟨lacking, before, after, rfl, offered⟩ := List.find?_eq_some_iff_append.1 first
  obtain ⟨ready, prepared⟩ := Option.isSome_iff_exists.1 ((prepare_isSome_iff accepts).2 planned)
  -- the entries of the import section, up to the one that is lacking and after it
  obtain ⟨bound, others, split, bounds, rest⟩ :=
    List.map_eq_append_iff.1 (map_snd_zip_range (before ++ d :: after))
  obtain ⟨e, others, rfl, rfl, -⟩ := List.map_eq_cons_iff.1 rest
  have offers : ∀ b ∈ bound, (host.find? b.2.name).isSome = true := by
    intro b mem
    have := offered b.2 (bounds ▸ List.mem_map_of_mem mem)
    simpa [Option.isSome_iff_ne_none] using this
  have typed : ∀ b ∈ bound,
      ((before ++ e.2 :: after ++ defined).map (·.funcType))[b.1]? = some b.2.funcType := by
    intro b mem
    refine getElem?_funcType_of_mem defined ?_
    rw [split]
    exact List.mem_append_left _ mem
  have distinct : (bound.map (·.2.name)).Nodup := by
    have all := nodup_imports tidy (complete_usual p) accepts
    rw [List.map_append, ← bounds, List.map_map] at all
    exact all.of_append_left
  have stops := Instance.foldlM_bindImport_missing offers typed distinct
    (i := ⟨hostModule, e.2.name, .func e.1⟩) rfl (by simpa using lacking)
  have entries : (p.emitted p.usual o (before ++ e.2 :: after ++ defined)).imports =
      (bound.map fun e => ⟨hostModule, e.2.name, .func e.1⟩) ++ ⟨hostModule, e.2.name, .func e.1⟩ ::
        ((others.map fun e => ⟨hostModule, e.2.name, .func e.1⟩) ++
          o.memory.toList.map fun l => ⟨hostModule, memoryField, .memory (.narrow l)⟩) := by
    rw [emitted, imports_moduleOf accepts.imported accepts.defined, split]
    simp
  have types : (p.emitted p.usual o (before ++ e.2 :: after ++ defined)).types =
      (before ++ e.2 :: after ++ defined).map (·.funcType) := rfl
  rw [Instance.link, prepared, entries, types]
  dsimp only
  rw [stops]
  rfl

/-- A program that is compiled has an instance on a host exactly if the host offers all imports.  If
it does not, the error names the first import that is lacking, and nothing has happened.  If it
does, the instance has the memory that the options ask for, whatever calls are made: the module has
no instruction that reaches a memory. -/
theorem instantiates [SingleArith] {bs : Bytes} (built : p.Built) (planned : p.Planned)
    (compiled : p.compile o = .ok bs) (host : Host σ) (st : σ) :
    ((∃ i after, (Instance.ofBytes bs host).run st = (.ok i, after)) ↔
      ∀ f d, p.get? f = some d → d.isImport = true → (host.find? d.name).isSome = true) ∧
    (∀ d, p.decls.find? (fun d => d.isImport && (host.find? d.name).isNone) = some d →
      (Instance.ofBytes bs host).run st = (.error (.missingImport d.name), st)) ∧
    (∃ m, Module.ofBytes? bs = some m ∧ ∀ c ∈ m.code, ∀ i ∈ c.body, ∀ opcode ∈ i.encode.head?,
      reachesMemory opcode = false) ∧
    ∀ calls, (∀ f d, p.get? f = some d → d.isImport = true → (host.find? d.name).isSome = true) →
      ((Instance.memoryAfter bs host calls).run st).1 =
        .ok (o.memory.isSome, o.memory.map (·.minimum.toNat * 65536)) := by
  have tidy := built.tidy
  have complete := complete_usual p
  obtain ⟨imports, defined, accepts, read, fits, bodies⟩ := emitted_of_compile tidy compiled
  have lacking : ∀ d, p.decls.find? (fun d => d.isImport && (host.find? d.name).isNone) = some d →
      (Instance.ofBytes bs host).run st = (.error (.missingImport d.name), st) := by
    intro d first
    have among : imports.find? (fun d => (host.find? d.name).isNone) = some d := by
      rw [imports_eq_filter accepts, List.find?_filter, Array.find?_toList]
      simpa only [Bool.decide_and, Bool.decide_eq_true] using first
    rw [Instance.ofBytes, read]
    dsimp only
    rw [link_missing tidy accepts planned among]
    rfl
  have made : (∀ f d, p.get? f = some d → d.isImport = true → (host.find? d.name).isSome = true) →
      ∃ i, (Instance.ofBytes bs host).run st = (.ok i, st) ∧
        i.memory = o.memory.map (·.minimum.toNat) := by
    intro offers
    obtain ⟨i, linked⟩ := (link_emitted tidy complete accepts fits offers).2
      ((prepare_isSome_iff accepts).2 planned)
    obtain ⟨bound, imported, -, pages⟩ := exists_bound tidy complete accepts fits offers
    obtain ⟨_, _, -, imported', rfl⟩ := Instance.link_eq_ok.1 linked
    obtain rfl := Except.ok.inj (imported.symm.trans imported')
    exact ⟨_, (Instance.run_ofBytes_eq_ok read rfl).2 ⟨linked, rfl⟩, pages⟩
  refine ⟨⟨?_, ?_⟩, lacking, ⟨_, read, fun _ _ i _ _ => i.reachesMemory_encode⟩, ?_⟩
  · rintro ⟨i, after, given⟩ f d known imported
    by_contra none
    have some : (p.decls.find?
        (fun d => d.isImport && (host.find? d.name).isNone)).isSome = true := by
      rw [Array.find?_isSome]
      obtain ⟨-, here⟩ := get?_eq_some.1 known
      refine ⟨d, Array.mem_of_getElem? here, ?_⟩
      rw [imported, Bool.true_and, Option.isNone_iff_eq_none]
      simpa using none
    obtain ⟨e, first⟩ := Option.isSome_iff_exists.1 some
    rw [lacking e first] at given
    cases given
  · intro offers
    obtain ⟨i, given, -⟩ := made offers
    exact ⟨i, st, given⟩
  · intro calls offers
    obtain ⟨i, given, pages⟩ := made offers
    rw [Instance.run_memoryAfter given, Instance.hasMemory, Instance.memorySize, pages]
    simp [Function.comp_def, Instance.pageSize]

theorem planned_sample : sample.Planned := by
  refine planned_of_short ?_
  intro f d known _
  exact of_decide_eq_true (forall_of_all (fun f d =>
    (sample.codeOf sample.usual f d).localCount d.funcType.params +
      (sample.codeOf sample.usual f d).body.length < CellPlan.cellBound)
    (by decide +kernel) f d known)

theorem instantiates_sample :
    ∃ bs, sample.compile ⟨some ⟨1, some 2⟩⟩ = .ok bs ∧
      (Instance.ofBytes bs (.empty : Host Nat)).run 3 = (.error (.missingImport "log"), 3) ∧
      ((Instance.memoryAfter bs Host.logging [("run", [.int 20, .float .one])]).run []).1 =
        .ok (true, some 65536) := by
  obtain ⟨bs, compiled⟩ : ∃ bs, sample.compile ⟨some ⟨1, some 2⟩⟩ = .ok bs :=
    exists_eq_ok_of_toBool (by decide +kernel)
  have offers : ∀ f d, sample.get? f = some d → d.isImport = true →
      (Host.logging.find? d.name).isSome = true := offers_of_all (by decide +kernel)
  obtain ⟨-, lacking, -, -⟩ :=
    instantiates built_sample planned_sample compiled (.empty : Host Nat) 3
  obtain ⟨-, -, -, memory⟩ := instantiates built_sample planned_sample compiled Host.logging []
  exact ⟨bs, compiled, lacking _ rfl, memory _ offers⟩

end Program

end WasmForge

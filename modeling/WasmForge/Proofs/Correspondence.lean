import Mathlib
import WasmForge.Proofs.FunctionOrder
import WasmForge.Proofs.RenamedTrees

/-!
# Emission of corresponding programs

Two programs correspond when every declaration of one has its like in the other, perhaps under
another handle, and perhaps with other text in it that no module holds.  Their emissions are
followed in step, from the trees up to the finished module: both come to the same bytes, or both
fail in the same way.

* `Declaration.Unseen`, `Program.Recasts`: changes that cannot be seen in a module.
* `Scope.matches_recast`: in corresponding functions, handles mean the same.
* `Program.Recasts.refs_usual_eq`: the usual numberings correspond.
* `Program.Recasts.alike_compileWithMap`, `Program.Recasts.alike_compile`: both programs are emitted
  alike.
-/

namespace WasmForge

/-! ## Renaming -/

variable {φ : FuncRef → FuncRef} {τ : Declaration → Declaration}

/-- The local of another function, at the same place. -/
def Local.rename (φ : FuncRef → FuncRef) (l : Local) : Local := ⟨φ l.owner, l.place⟩

/-- The statement with other handles. -/
def Stmt.rename (φ : FuncRef → FuncRef) (c : Stmt) : Stmt := c.relabel (Local.rename φ) φ

/-! ## Corresponding programs -/

/-- A change of declarations that cannot be seen in a module.  It renames the handles in bodies, and
otherwise changes only the names of internal functions, the names of parameters and the code of the
host. -/
structure Declaration.Unseen (φ : FuncRef → FuncRef) (τ : Declaration → Declaration) : Prop where
  /-- Names of imports and exports. -/
  name : ∀ d, d.linkage ≠ .internal → (τ d).name = d.name
  /-- Types of parameters. -/
  types : ∀ d, (τ d).params.map (·.type) = d.params.map (·.type)
  /-- The type of the result. -/
  result : ∀ d, (τ d).result = d.result
  /-- The kind of the function. -/
  kind : ∀ d, (τ d).linkage.entryKind = d.linkage.entryKind
  /-- The locals. -/
  locals : ∀ d, (τ d).locals = d.locals
  /-- The body. -/
  body : ∀ d, (τ d).body = d.body.map (Stmt.rename φ)

namespace Declaration.Unseen

variable (unseen : Unseen φ τ) (d : Declaration)

include unseen

theorem isImport : (τ d).isImport = d.isImport := by
  rw [Declaration.isImport, Declaration.isImport, Linkage.isImport_eq, Linkage.isImport_eq,
    unseen.kind]

theorem isExport : (τ d).isExport = d.isExport := by
  rw [Declaration.isExport, Declaration.isExport, Linkage.beq_exported, Linkage.beq_exported,
    unseen.kind]

theorem name_of_import (imported : d.isImport = true) : (τ d).name = d.name := by
  refine unseen.name d fun internal => ?_
  rw [Declaration.isImport, internal] at imported
  cases imported

theorem name_of_export (exported : d.isExport = true) : (τ d).name = d.name := by
  refine unseen.name d fun internal => ?_
  rw [Declaration.isExport, internal] at exported
  cases exported

theorem length_params : (τ d).params.length = d.params.length := by
  simpa using congrArg List.length (unseen.types d)

theorem localType? (place : Place) : (τ d).localType? place = d.localType? place := by
  cases place with
  | param i =>
    have types := congrArg (·[i]?) (unseen.types d)
    simpa only [Declaration.localType?, List.getElem?_map] using types
  | var i => rw [Declaration.localType?, Declaration.localType?, unseen.locals d]

theorem funcType : (τ d).funcType = d.funcType := by
  have params : ∀ e : Declaration, e.params.filterMap (·.type.valType?) =
      (e.params.map (·.type)).filterMap ValueType.valType? := by
    intro e
    rw [List.filterMap_map]
    rfl
  rw [Declaration.funcType, Declaration.funcType, params, params, unseen.types d, unseen.result d]

variable (ds : List (Nat × Declaration))

theorem defined_eq : ModuleDraft.defined (ds.map fun e => (e.1, τ e.2)) =
    (ModuleDraft.defined ds).map fun e => (e.1, τ e.2) := by
  unfold ModuleDraft.defined
  rw [List.filter_map]
  refine congrArg _ (List.filter_congr fun e _ => ?_)
  exact congrArg (!·) (unseen.isImport e.2)

theorem imports_eq (memory : Option Limits) :
    ModuleDraft.imports memory (ds.map fun e => (e.1, τ e.2)) = ModuleDraft.imports memory ds := by
  unfold ModuleDraft.imports
  rw [List.filterMap_map]
  refine congrArg (· ++ _) (List.filterMap_congr ?_)
  rintro ⟨i, d⟩ _
  by_cases imported : d.isImport = true
  · simp [unseen.isImport, imported, unseen.name_of_import d imported]
  · simp [unseen.isImport, imported]

theorem exports_eq :
    ModuleDraft.exports (ds.map fun e => (e.1, τ e.2)) = ModuleDraft.exports ds := by
  unfold ModuleDraft.exports
  rw [List.filterMap_map]
  refine List.filterMap_congr ?_
  rintro ⟨i, d⟩ _
  by_cases exported : d.isExport = true
  · simp [unseen.isExport, exported, unseen.name_of_export d exported]
  · simp [unseen.isExport, exported]

end Declaration.Unseen

/-- The second program is the first one with other handles and other declarations: every declaration
has its like, other handles mean nothing to either program, and the functions of each kind are
declared in the same order. -/
structure Program.Recasts (φ : FuncRef → FuncRef) (τ : Declaration → Declaration) (p q : Program) :
    Prop where
  /-- The change cannot be seen. -/
  unseen : Declaration.Unseen φ τ
  /-- Different handles stay different. -/
  injective : Function.Injective φ
  /-- What a handle means, if anything. -/
  get? : ∀ f, q.get? (φ f) = (p.get? f).map τ
  /-- There are no other declarations. -/
  onto : ∀ g, q.owns g = true → ∃ f, φ f = g
  /-- The order of functions of one kind. -/
  ordered : ∀ f g d e, p.get? f = some d → p.get? g = some e →
    d.linkage.entryKind = e.linkage.entryKind → f.index < g.index → (φ f).index < (φ g).index

/-! ## Lowering -/

namespace Scope

/-- The scope of the corresponding function, in another program. -/
def recast (φ : FuncRef → FuncRef) (τ : Declaration → Declaration) (q : Program) (s : Scope) :
    Scope :=
  ⟨q, φ s.func, τ s.decl⟩

variable {s : Scope} {q : Program} (recasts : Program.Recasts φ τ s.program q)

include recasts

theorem alike_localType (l : Local) :
    Alike Eq (s.localType l) ((s.recast φ τ q).localType (l.rename φ)) := by
  by_cases own : l.owner = s.func
  · have own' : (l.rename φ).owner = (s.recast φ τ q).func := congrArg φ own
    have same : (s.recast φ τ q).decl.localType? (l.rename φ).place = s.decl.localType? l.place :=
      recasts.unseen.localType? s.decl l.place
    rw [localType, localType, if_pos own, if_pos own', same]
    cases s.decl.localType? l.place with
    | some t => exact .ok rfl
    | none => exact .error rfl
  · have own' : ¬(l.rename φ).owner = (s.recast φ τ q).func := fun same =>
      own (recasts.injective same)
    rw [localType, localType, if_neg own, if_neg own']
    exact .error rfl

theorem alike_callee (g : FuncRef) :
    Alike (fun d e => e = τ d) (s.callee g) ((s.recast φ τ q).callee (φ g)) := by
  simp only [callee, recast, recasts.get? g]
  cases s.program.get? g with
  | some d => exact .ok rfl
  | none => exact .error rfl

/-- In the corresponding function, the new handles mean what the old ones mean. -/
theorem matches_recast : Matches (Local.rename φ) φ Set.univ s (s.recast φ τ q) where
  result := recasts.unseen.result s.decl
  locals l _ := alike_localType recasts l
  callees g := by
    refine (alike_callee recasts g).mono ?_
    rintro d _ rfl
    exact ⟨recasts.unseen.types d, recasts.unseen.result d⟩

end Scope

/-! ## Numberings -/

namespace Program.Recasts

variable {p q : Program} (recasts : Recasts φ τ p q)

include recasts

/-- What is declared in the second program is what is declared in the first, changed. -/
theorem known_iff {g : FuncRef} {e : Declaration} :
    q.get? g = some e ↔ ∃ f d, p.get? f = some d ∧ g = φ f ∧ e = τ d := by
  constructor
  · intro known
    obtain ⟨f, rfl⟩ := recasts.onto g (Option.isSome_iff_exists.2 ⟨e, known⟩)
    rw [recasts.get? f, Option.map_eq_some_iff] at known
    obtain ⟨d, known, rfl⟩ := known
    exact ⟨f, d, known, rfl, rfl⟩
  · rintro ⟨f, d, known, rfl, rfl⟩
    rw [recasts.get? f, known, Option.map_some]

/-- The functions of one kind correspond, in order. -/
theorem refsWhere_eq {test : Declaration → Bool} (kind : EntryKind)
    (same : ∀ d, test d = (d.linkage.entryKind == kind)) :
    q.refsWhere test = (p.refsWhere test).map φ := by
  have blind : ∀ d, test (τ d) = test d := by
    intro d
    rw [same, same, recasts.unseen.kind]
  have antisymm : Std.Antisymm fun f g : FuncRef => f.index < g.index :=
    ⟨fun _ _ before after => absurd before (Nat.lt_asymm after)⟩
  have irrefl : Std.Irrefl fun f g : FuncRef => f.index < g.index :=
    ⟨fun f => Nat.lt_irrefl f.index⟩
  have kept : ((p.refsWhere test).map φ).Pairwise (·.index < ·.index) := by
    rw [List.pairwise_map]
    refine (pairwise_refsWhere p test).imp_of_mem ?_
    intro f g hf hg before
    obtain ⟨d, known, td⟩ := mem_refsWhere.1 hf
    obtain ⟨e, known', te⟩ := mem_refsWhere.1 hg
    rw [same, beq_iff_eq] at td te
    exact recasts.ordered f g d e known known' (td.trans te.symm) before
  refine (pairwise_refsWhere q test).eq_of_mem_iff kept ?_
  intro g
  rw [mem_refsWhere, List.mem_map]
  constructor
  · rintro ⟨e, known, te⟩
    obtain ⟨f, d, here, rfl, rfl⟩ := recasts.known_iff.1 known
    exact ⟨f, mem_refsWhere.2 ⟨d, here, by rwa [← blind]⟩, rfl⟩
  · rintro ⟨f, mem, rfl⟩
    obtain ⟨d, known, td⟩ := mem_refsWhere.1 mem
    exact ⟨τ d, recasts.known_iff.2 ⟨f, d, known, rfl, rfl⟩, by rwa [blind]⟩

/-- The functions correspond in their usual order. -/
theorem refs_usual_eq : q.usual.refs = p.usual.refs.map φ := by
  have imports : q.refsWhere (·.isImport) = (p.refsWhere (·.isImport)).map φ :=
    recasts.refsWhere_eq .imported fun d => d.linkage.isImport_eq
  have internals : q.refsWhere (·.linkage == .internal) =
      (p.refsWhere (·.linkage == .internal)).map φ :=
    recasts.refsWhere_eq .internal fun d => d.linkage.beq_internal
  have exports : q.refsWhere (·.isExport) = (p.refsWhere (·.isExport)).map φ :=
    recasts.refsWhere_eq .exported fun d => d.linkage.beq_exported
  rw [refs_usual, refs_usual, numbered, numbered, List.map_append, List.map_append, imports,
    internals, exports]

/-- Corresponding functions have the same index. -/
theorem indexOf?_usual_eq (f : FuncRef) : q.usual.indexOf? (φ f) = p.usual.indexOf? f := by
  refine Option.ext fun i => ?_
  rw [(complete_usual q).indexOf?_eq_some, (complete_usual p).indexOf?_eq_some,
    recasts.refs_usual_eq, List.getElem?_map, Option.map_eq_some_iff]
  constructor
  · rintro ⟨g, at_i, same⟩
    rwa [← recasts.injective same]
  · intro at_i
    exact ⟨f, at_i, rfl⟩

theorem alike_indexOf (f : FuncRef) :
    Alike Eq ((p.usual.indexOf f).mapError .resolution)
      ((q.usual.indexOf (φ f)).mapError .resolution) := by
  unfold Numbering.indexOf
  rw [recasts.indexOf?_usual_eq f]
  cases p.usual.indexOf? f with
  | some i => exact .ok rfl
  | none => exact .error rfl

/-! ## Bodies -/

omit recasts in
/-- The same slots are given out. -/
theorem layout_eq (unseen : Declaration.Unseen φ τ) {s : Scope} {code : List SymbolicInstr}
    {depth : Nat} :
    (⟨s.recast φ τ q, code.map (Instr.relabel (Local.rename φ) φ), depth⟩ : Assembler).layout =
      (⟨s, code, depth⟩ : Assembler).layout := by
  have touched : (code.map (Instr.relabel (Local.rename φ) φ)).filterMap Assembler.touchedVar? =
      code.filterMap Assembler.touchedVar? := by
    rw [List.filterMap_map]
    refine List.filterMap_congr ?_
    intro i _
    cases i with
    | op o =>
      cases o with
      | localGet l => cases l with | mk _ place => cases place <;> rfl
      | localSet l => cases l with | mk _ place => cases place <;> rfl
      | _ => rfl
    | _ => rfl
  unfold Assembler.layout
  show SlotLayout.of (τ s.decl).params.length (τ s.decl).locals _ = _
  rw [touched, unseen.length_params, unseen.locals]

/-- Corresponding bodies have the same bytes. -/
theorem alike_lower {f : FuncRef} {d : Declaration} (known : p.get? f = some d) :
    Alike Eq (p.lower f d p.usual) (q.lower (φ f) (τ d) q.usual) := by
  have known' : q.get? (φ f) = some (τ d) := recasts.known_iff.2 ⟨f, d, known, rfl, rfl⟩
  refine Program.alike_lower known known' (recasts.unseen.isImport d) (recasts.unseen.body d)
    (Scope.matches_recast (s := ⟨p, f, d⟩) recasts) (fun _ _ _ _ => trivial) ?_
    recasts.indexOf?_usual_eq
  intro code _
  have same : (⟨(⟨p, f, d⟩ : Scope).recast φ τ q, code.map (Instr.relabel (Local.rename φ) φ), 0⟩ :
      Assembler).layout = (⟨⟨p, f, d⟩, code, 0⟩ : Assembler).layout := layout_eq recasts.unseen
  exact ⟨congrArg SlotLayout.localGroups same, fun l _ => congrArg (·.slotOf? l.place) same⟩

/-! ## Modules -/

/-- Drafts for the two programs that have got the same bodies. -/
def Drafts (p q : Program) (o : EmitOptions) (m m' : ModuleDraft) : Prop :=
  ∃ bodies, m = ⟨p, p.usual, o, bodies⟩ ∧ m' = ⟨q, q.usual, o, bodies⟩

variable {o : EmitOptions} {m m' : ModuleDraft}

theorem alike_declaration (f : FuncRef) :
    Alike (fun d e => e = τ d) (ModuleDraft.declaration p f)
      (ModuleDraft.declaration q (φ f)) := by
  unfold ModuleDraft.declaration
  rw [recasts.get? f]
  cases p.get? f with
  | some d => exact .ok rfl
  | none => exact .error rfl

theorem hasImport_eq (name : String) : q.hasImport name = p.hasImport name := by
  rw [Bool.eq_iff_iff, hasImport_iff, hasImport_iff]
  constructor
  · rintro ⟨g, e, known, imported, named⟩
    obtain ⟨f, d, here, rfl, rfl⟩ := recasts.known_iff.1 known
    rw [recasts.unseen.isImport] at imported
    rw [recasts.unseen.name_of_import d imported] at named
    exact ⟨f, d, here, imported, named⟩
  · rintro ⟨f, d, known, imported, named⟩
    refine ⟨φ f, τ d, recasts.known_iff.2 ⟨f, d, known, rfl, rfl⟩, ?_, ?_⟩
    · rwa [recasts.unseen.isImport]
    · rwa [recasts.unseen.name_of_import d imported]

theorem alike_start (o : EmitOptions) :
    Alike (Drafts p q o) (ModuleDraft.start p p.usual o) (ModuleDraft.start q q.usual o) := by
  by_cases free : o.memory.isSome = true → p.hasImport memoryField = false
  · have started : ∀ r : Program, (o.memory.isSome = true → r.hasImport memoryField = false) →
        ModuleDraft.start r r.usual o = .ok ⟨r, r.usual, o, []⟩ := by
      intro r free
      obtain ⟨defined, -, accepts⟩ := accepts_usual free
      exact ModuleDraft.start_eq_ok.2 ⟨⟨_, defined, accepts⟩, rfl⟩
    rw [started p free, started q (by rwa [recasts.hasImport_eq])]
    exact .ok ⟨[], rfl, rfl⟩
  · have refused : ∀ r : Program, r.hasImport memoryField = p.hasImport memoryField →
        ModuleDraft.start r r.usual o = .error (.configuration (.memoryNameTaken memoryField)) := by
      intro r same
      obtain ⟨_, -, accepts⟩ := accepts_usual (p := r) (o := ⟨none⟩) (by simp)
      rw [Classical.not_imp, Bool.not_eq_false] at free
      simp [ModuleDraft.start, ModuleDraft.checkMemoryName, accepts.program, accepts.size, free,
        same, bind, Except.bind]
    rw [refused p rfl, refused q (recasts.hasImport_eq memoryField)]
    exact .error rfl

theorem alike_addBody (drafts : Drafts p q o m m') (f : FuncRef) (body : Bytes) :
    Alike (Drafts p q o) (m.addBody f body) (m'.addBody (φ f) body) := by
  obtain ⟨bodies, rfl, rfl⟩ := drafts
  unfold ModuleDraft.addBody
  refine (recasts.alike_indexOf f).bind ?_
  rintro index _ rfl
  refine (recasts.alike_declaration f).bind ?_
  rintro d _ rfl
  rw [recasts.unseen.isImport]
  split
  · exact .error rfl
  · split
    · exact .error rfl
    · exact .ok ⟨(index, body) :: bodies, rfl, rfl⟩

theorem alike_addLowered (drafts : Drafts p q o m m') (f : FuncRef) :
    Alike (Drafts p q o) (p.addLowered m f) (q.addLowered m' (φ f)) := by
  obtain ⟨bodies, rfl, rfl⟩ := drafts
  unfold addLowered
  rw [recasts.get? f]
  cases known : p.get? f with
  | none => exact .ok ⟨bodies, rfl, rfl⟩
  | some d =>
    show Alike _ (if d.isImport = true then _ else _) (if (τ d).isImport = true then _ else _)
    rw [recasts.unseen.isImport]
    split
    · exact .ok ⟨bodies, rfl, rfl⟩
    · refine (recasts.alike_lower known).bind ?_
      rintro body _ rfl
      exact recasts.alike_addBody ⟨bodies, rfl, rfl⟩ f body

/-- Drafts with the same bodies describe the same module. -/
theorem alike_toModule (drafts : Drafts p q o m m') : Alike Eq m.toModule m'.toModule := by
  obtain ⟨bodies, rfl, rfl⟩ := drafts
  have indexed : Alike (fun ds es => es = ds.map fun e => (e.1, τ e.2))
      (⟨p, p.usual, o, bodies⟩ : ModuleDraft).indexed
      (⟨q, q.usual, o, bodies⟩ : ModuleDraft).indexed := by
    unfold ModuleDraft.indexed
    rw [recasts.refs_usual_eq]
    refine (Alike.mapM fun f _ => recasts.alike_declaration f).bind ?_
    rintro ds _ rfl
    refine .ok ?_
    rw [List.length_map]
    exact List.zip_map_right ..
  unfold ModuleDraft.toModule
  refine indexed.bind ?_
  rintro ds _ rfl
  have coded : Alike Eq
      ((ModuleDraft.defined ds).mapM (⟨p, p.usual, o, bodies⟩ : ModuleDraft).bodyOf)
      (((ModuleDraft.defined ds).map fun e => (e.1, τ e.2)).mapM
        (⟨q, q.usual, o, bodies⟩ : ModuleDraft).bodyOf) := by
    refine Alike.mapM_eq fun e _ => ?_
    show Alike Eq (ModuleDraft.bodyOf _ e) (ModuleDraft.bodyOf _ (e.1, τ e.2))
    unfold ModuleDraft.bodyOf
    cases bodies.lookup e.1 with
    | some body => exact .ok rfl
    | none => exact .error rfl
  have types : (ds.map fun e => (e.1, τ e.2)).map (·.2.funcType) = ds.map (·.2.funcType) := by
    rw [List.map_map]
    exact List.map_congr_left fun e _ => recasts.unseen.funcType e.2
  rw [recasts.unseen.defined_eq]
  refine coded.bind ?_
  rintro code _ rfl
  rw [recasts.unseen.imports_eq, recasts.unseen.exports_eq, types, List.map_map]
  exact .ok rfl

theorem alike_finishDraft (drafts : Drafts p q o m m') : Alike Eq m.finish m'.finish := by
  unfold ModuleDraft.finish ModuleDraft.finishWith
  refine (recasts.alike_toModule drafts).bind ?_
  rintro module _ rfl
  exact .of_eq rfl

/-- Both programs are emitted alike, with maps that are related if the maps of the two programs
are. -/
theorem alike_compileWithMap {R : Bytes × ModuleMap → Bytes × ModuleMap → Prop} (o : EmitOptions)
    (maps : ∀ bs, R (bs, ModuleMap.ofProgram p p.usual o.memory)
      (bs, ModuleMap.ofProgram q q.usual o.memory)) :
    Alike R (p.compileWithMap o) (q.compileWithMap o) := by
  unfold compileWithMap
  refine (Alike.of_eq rfl).bind fun _ _ _ => ?_
  rw [number_eq p, number_eq q]
  refine (recasts.alike_start o).bind fun first first' drafts => ?_
  show Alike R (p.usual.refs.foldlM p.addLowered first >>= _)
    (q.usual.refs.foldlM q.addLowered first' >>= _)
  rw [recasts.refs_usual_eq]
  refine (Alike.foldlM (fun f _ _ _ drafts => recasts.alike_addLowered drafts f) drafts).bind ?_
  intro last last' drafts
  refine (recasts.alike_finishDraft drafts).bind ?_
  rintro bs _ rfl
  exact .ok (maps bs)

/-- Both programs are emitted as the same bytes. -/
theorem alike_compile (o : EmitOptions) : Alike Eq (p.compile o) (q.compile o) :=
  (recasts.alike_compileWithMap (R := fun x y => x.1 = y.1) o fun _ => rfl).map fun _ _ same => same

end Program.Recasts

end WasmForge

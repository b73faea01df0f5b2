import Mathlib
import WasmForge.Emit.ModuleDraft
import WasmForge.Proofs.ModuleReading
import WasmForge.Proofs.Numbering

/-!
# Module drafts

What a draft checks when it is started, when a body is added and when it is finished, each as one
statement about success, and what a whole row of additions comes to.

* `ModuleDraft.Accepts`: what is checked at the start; the declarations in function order are
  imports, then defined functions.
* `ModuleDraft.Bodies`: the bodies after a row of additions are those that were added.
* `ModuleDraft.toModule_eq_ok`: the module that a draft describes.
-/

namespace WasmForge

namespace ModuleDraft

variable {p : Program} {n : Numbering} {o : EmitOptions} {m m' : ModuleDraft}

/-! ## Starting -/

theorem declaration_eq_ok {f : FuncRef} {d : Declaration} :
    declaration p f = .ok d ↔ p.get? f = some d := by
  unfold declaration
  split <;> simp_all

theorem mapM_declaration_eq_ok {fs : List FuncRef} {ds : List Declaration} :
    fs.mapM (declaration p) = .ok ds ↔ fs.map p.get? = ds.map some :=
  mapM_eq_ok fun _ _ => declaration_eq_ok

/-- No import has an index above a defined function exactly when the declarations are imports
first. -/
theorem checkOrder_eq_ok {i : Nat} {definedBefore : Bool} {fs : List FuncRef} :
    checkOrder p i definedBefore fs = .ok () ↔
      ∃ imports defined, fs.map p.get? = (imports ++ defined).map some ∧
        (∀ d ∈ imports, d.isImport = true) ∧ (∀ d ∈ defined, d.isImport = false) ∧
        (definedBefore = true → imports = []) := by
  induction fs generalizing i definedBefore with
  | nil =>
    refine ⟨fun _ => ⟨[], [], rfl, by simp, by simp, fun _ => rfl⟩, fun _ => rfl⟩
  | cons f fs ih =>
    rw [checkOrder, bind_eq_ok]
    constructor
    · rintro ⟨d, known, h⟩
      rw [declaration_eq_ok] at known
      split at h
      · rename_i imported
        split at h
        · cases h
        · rename_i notBefore
          obtain ⟨imports, defined, rest, all, none, -⟩ := ih.1 h
          refine ⟨d :: imports, defined, by simp [known, rest], ?_, none, ?_⟩
          · simpa [imported] using all
          · intro before
            exact absurd before notBefore
      · rename_i defined
        obtain ⟨imports, ds, rest, -, none, empty⟩ := ih.1 h
        rw [empty rfl, List.nil_append] at rest
        refine ⟨[], d :: ds, by simp [known, rest], by simp, ?_, fun _ => rfl⟩
        simpa [defined] using none
    · rintro ⟨imports, defined, all, imported, none, empty⟩
      cases imports with
      | cons d imports =>
        rw [List.cons_append, List.map_cons, List.map_cons, List.cons.injEq] at all
        refine ⟨d, declaration_eq_ok.2 all.1, ?_⟩
        rw [if_pos (imported d List.mem_cons_self), if_neg]
        · exact ih.2 ⟨imports, defined, all.2, fun e he => imported e (List.mem_cons_of_mem d he),
            none, by simp⟩
        · intro before
          cases empty before
      | nil =>
        cases defined with
        | nil => simp at all
        | cons d defined =>
          rw [List.nil_append, List.map_cons, List.map_cons, List.cons.injEq] at all
          refine ⟨d, declaration_eq_ok.2 all.1, ?_⟩
          rw [if_neg (by simp [none d List.mem_cons_self])]
          exact ih.2 ⟨[], defined, all.2, by simp, fun e he => none e (List.mem_cons_of_mem d he),
            fun _ => rfl⟩

/-- What is checked at the start of a draft.  In function order, the declarations are `imports`
followed by `defined`. -/
structure Accepts (p : Program) (n : Numbering) (o : EmitOptions)
    (imports defined : List Declaration) : Prop where
  /-- The numbering is of this program. -/
  program : n.program = p.id
  /-- It covers the program as it is now. -/
  size : n.size = p.size
  /-- No import has the name of the memory. -/
  memory : o.memory.isSome = true → p.hasImport memoryField = false
  /-- The declarations in function order. -/
  refs : n.refs.map p.get? = (imports ++ defined).map some
  /-- The first of them are imports. -/
  imported : ∀ d ∈ imports, d.isImport = true
  /-- The others are not. -/
  defined : ∀ d ∈ defined, d.isImport = false

theorem checkMemoryName_eq_ok :
    checkMemoryName p o = .ok () ↔ (o.memory.isSome = true → p.hasImport memoryField = false) := by
  unfold checkMemoryName
  split <;> simp_all

theorem start_eq_ok :
    start p n o = .ok m ↔
      (∃ imports defined, Accepts p n o imports defined) ∧ m = ⟨p, n, o, []⟩ := by
  unfold start
  split
  · rename_i other
    simp only [reduceCtorEq, false_iff, not_and]
    exact fun ⟨_, _, accepts⟩ => absurd accepts.program other
  · rename_i program
    split
    · rename_i other
      simp only [reduceCtorEq, false_iff, not_and]
      exact fun ⟨_, _, accepts⟩ => absurd accepts.size other
    · rename_i size
      rw [bind_eq_ok]
      constructor
      · rintro ⟨⟨⟩, memory, h⟩
        obtain ⟨⟨⟩, order, h⟩ := bind_eq_ok.1 h
        obtain ⟨imports, defined, refs, all, none, -⟩ := checkOrder_eq_ok.1 order
        cases h
        exact ⟨⟨imports, defined, not_not.1 program, not_not.1 size,
          checkMemoryName_eq_ok.1 memory, refs, all, none⟩, rfl⟩
      · rintro ⟨⟨imports, defined, accepts⟩, rfl⟩
        refine ⟨(), checkMemoryName_eq_ok.2 accepts.memory, bind_eq_ok.2 ⟨(), ?_, rfl⟩⟩
        exact checkOrder_eq_ok.2 ⟨imports, defined, accepts.refs, accepts.imported,
          accepts.defined, by simp⟩

/-! ## Adding bodies -/

/-- A body is added exactly when its handle is that of a defined function without a body. -/
theorem addBody_eq_ok {f : FuncRef} {body : Bytes} :
    m.addBody f body = .ok m' ↔
      ∃ i d, m.numbering.indexOf? f = some i ∧ m.program.get? f = some d ∧ d.isImport = false ∧
        m.bodies.lookup i = none ∧ m' = { m with bodies := (i, body) :: m.bodies } := by
  unfold addBody
  simp only [bind_eq_ok, mapError_eq_ok, Numbering.indexOf_eq_ok, declaration_eq_ok]
  constructor
  · rintro ⟨i, index, d, known, h⟩
    split at h
    · cases h
    · rename_i defined
      split at h
      · cases h
      · rename_i fresh
        cases h
        exact ⟨i, d, index, known, by simpa using defined,
          Option.not_isSome_iff_eq_none.1 fresh, rfl⟩
  · rintro ⟨i, d, index, known, defined, fresh, rfl⟩
    exact ⟨i, index, d, known, by simp [defined, fresh]⟩

/-- The draft `last` comes from `first` by additions, and its bodies are those of `first` and, at
the indices of their handles, those in `added`. -/
structure Bodies (first last : ModuleDraft) (added : FuncRef → Option Bytes) : Prop where
  /-- The program is the same. -/
  program : last.program = first.program
  /-- The numbering is the same. -/
  numbering : last.numbering = first.numbering
  /-- The options are the same. -/
  options : last.options = first.options
  /-- Each handle has the body it had, or else the one that was added for it. -/
  bodies : ∀ f i, first.numbering.indexOf? f = some i →
    last.bodies.lookup i = (first.bodies.lookup i).or (added f)

theorem Bodies.refl (m : ModuleDraft) : Bodies m m fun _ => none :=
  ⟨rfl, rfl, rfl, fun _ _ _ => by simp⟩

/-- One addition before others. -/
theorem Bodies.cons {last : ModuleDraft} {f : FuncRef} {body : Bytes}
    {added : FuncRef → Option Bytes} (first : m.addBody f body = .ok m')
    (rest : Bodies m' last added) :
    Bodies m last fun g => if g = f then some body else added g := by
  obtain ⟨i, d, index, -, -, fresh, rfl⟩ := addBody_eq_ok.1 first
  refine ⟨rest.program, rest.numbering, rest.options, ?_⟩
  intro g k at_g
  rw [rest.bodies g k at_g, List.lookup_cons]
  by_cases same : g = f
  · obtain rfl : k = i := by simpa [same, index] using at_g.symm
    simp [same, fresh]
  · have other : k ≠ i := by
      rintro rfl
      have := Numbering.getElem?_refs_of_indexOf? at_g
      rw [Numbering.getElem?_refs_of_indexOf? index] at this
      exact same (Option.some.inj this).symm
    simp [same, beq_false_of_ne other]

/-- Adding bodies one after the other. -/
theorem bodies_foldlM {first last : ModuleDraft} {entries : List (FuncRef × Bytes)}
    (h : entries.foldlM (fun m e => m.addBody e.1 e.2) first = .ok last) :
    Bodies first last fun f => entries.lookup f := by
  induction entries generalizing first with
  | nil =>
    cases h
    exact Bodies.refl last
  | cons e entries ih =>
    rw [List.foldlM_cons, bind_eq_ok] at h
    obtain ⟨next, head, tail⟩ := h
    have row := Bodies.cons head (ih tail)
    refine ⟨row.program, row.numbering, row.options, ?_⟩
    intro f i index
    rw [row.bodies f i index, List.lookup_cons]
    by_cases same : f = e.1
    · simp [same]
    · simp [same, beq_false_of_ne same]

/-! ## Finishing -/

/-- The declarations of a draft with their indices. -/
theorem indexed_eq_ok {entries : List (Nat × Declaration)} :
    m.indexed = .ok entries ↔
      ∃ ds, m.numbering.refs.map m.program.get? = ds.map some ∧
        entries = (List.range ds.length).zip ds := by
  unfold indexed
  rw [bind_eq_ok]
  simp only [mapM_declaration_eq_ok, pure, Except.pure, Except.ok.injEq]
  exact exists_congr fun ds => and_congr_right fun _ => eq_comm

theorem bodyOf_eq_ok {entry : Nat × Declaration} {body : Bytes} :
    m.bodyOf entry = .ok body ↔ m.bodies.lookup entry.1 = some body := by
  unfold bodyOf
  cases m.bodies.lookup entry.1 <;> simp

/-- The module of declarations in function order, with the given bodies. -/
def moduleOf {β : Type} (memory : Option Limits) (ds : List Declaration) (code : List β) :
    Module β where
  types := ds.map (·.funcType)
  imports := imports memory ((List.range ds.length).zip ds)
  functions := (defined ((List.range ds.length).zip ds)).map (·.1)
  tables := []
  memories := []
  exports := exports ((List.range ds.length).zip ds)
  start := none
  code := code

theorem toModule_eq_ok {mod : Module Bytes} :
    m.toModule = .ok mod ↔
      ∃ ds code, m.numbering.refs.map m.program.get? = ds.map some ∧
        (defined ((List.range ds.length).zip ds)).map (fun e => m.bodies.lookup e.1) =
          code.map some ∧
        mod = moduleOf m.options.memory ds code := by
  have types : ∀ ds : List Declaration,
      ((List.range ds.length).zip ds).map (·.2.funcType) = ds.map (·.funcType) := by
    intro ds
    calc ((List.range ds.length).zip ds).map (·.2.funcType)
        = (((List.range ds.length).zip ds).map Prod.snd).map (·.funcType) := by
          rw [List.map_map]
          rfl
      _ = ds.map (·.funcType) := by rw [List.map_snd_zip (by simp)]
  unfold toModule
  rw [bind_eq_ok]
  simp only [bind_eq_ok, indexed_eq_ok, mapM_eq_ok fun _ _ => bodyOf_eq_ok, pure, Except.pure,
    Except.ok.injEq]
  constructor
  · rintro ⟨_, ⟨ds, refs, rfl⟩, code, bodies, rfl⟩
    exact ⟨ds, code, refs, bodies, by simp [moduleOf, types]⟩
  · rintro ⟨ds, code, refs, bodies, rfl⟩
    exact ⟨_, ⟨ds, refs, rfl⟩, code, bodies, by simp [moduleOf, types]⟩

theorem finish_eq_ok {bs : Bytes} :
    m.finish = .ok bs ↔
      ∃ mod, m.toModule = .ok mod ∧ (Module.ofBytes? mod.encode).isSome = true ∧
        bs = mod.encode := by
  unfold finish finishWith
  rw [bind_eq_ok]
  refine exists_congr fun mod => and_congr_right fun _ => ?_
  dsimp only
  split
  · rename_i valid
    simp [valid, eq_comm]
  · rename_i invalid
    simp [invalid]

/-! ## From handles to bodies -/

/-- What stands at an index is listed with it. -/
theorem mem_zip_range {α : Type} {l : List α} {e : Nat × α} :
    e ∈ (List.range l.length).zip l ↔ l[e.1]? = some e.2 := by
  rw [List.mem_iff_getElem?]
  simp only [List.getElem?_zip_eq_some]
  constructor
  · rintro ⟨i, index, here⟩
    obtain ⟨_, same⟩ := List.getElem?_eq_some_iff.1 index
    rw [List.getElem_range] at same
    exact same ▸ here
  · intro here
    exact ⟨e.1, List.getElem?_range (List.getElem?_eq_some_iff.1 here).1, here⟩

/-- The functions that are defined, in function order, with their declarations. -/
def definedRefs (n : Numbering) (ds : List Declaration) : List (FuncRef × Declaration) :=
  (n.refs.zip ds).filter (!·.2.isImport)

/-- What is found by index for the defined functions is what is found by handle. -/
theorem map_defined {α : Type} {ds : List Declaration} (size : n.refs.length = ds.length)
    {atIndex : Nat → α} {atRef : FuncRef → α}
    (same : ∀ i f, n.refs[i]? = some f → atIndex i = atRef f) :
    (defined ((List.range ds.length).zip ds)).map (fun e => atIndex e.1) =
      (definedRefs n ds).map fun e => atRef e.1 := by
  -- both lists are views of one list of indices, handles and declarations
  let all := (List.range ds.length).zip (n.refs.zip ds)
  have byIndex : (List.range ds.length).zip ds = all.map fun e => (e.1, e.2.2) := by
    have declarations : (n.refs.zip ds).map Prod.snd = ds := List.map_snd_zip (by omega)
    calc (List.range ds.length).zip ds
        = (List.range ds.length).zip ((n.refs.zip ds).map Prod.snd) := by rw [declarations]
      _ = all.map fun e => (e.1, e.2.2) := List.zip_map_right ..
  have byRef : n.refs.zip ds = all.map Prod.snd := by
    rw [List.map_snd_zip]
    simp [size]
  have agree : ∀ e ∈ all, atIndex e.1 = atRef e.2.1 := by
    intro e mem
    obtain ⟨i, at_i⟩ := List.mem_iff_getElem?.1 mem
    obtain ⟨first, second⟩ := List.getElem?_zip_eq_some.1 at_i
    obtain ⟨ref, -⟩ := List.getElem?_zip_eq_some.1 second
    obtain ⟨_, here⟩ := List.getElem?_eq_some_iff.1 first
    rw [List.getElem_range] at here
    exact same e.1 e.2.1 (here ▸ ref)
  rw [defined, definedRefs, byIndex, byRef, List.filter_map, List.filter_map, List.map_map,
    List.map_map]
  refine List.map_congr_left ?_
  intro e mem
  exact agree e (List.mem_of_mem_filter mem)

/-- A draft whose bodies are those in `added` is finished as the module of its declarations and
those bodies, if that module is valid. -/
theorem Bodies.finish_eq_ok {last : ModuleDraft} {added : FuncRef → Option Bytes}
    (complete : n.Complete) (row : Bodies ⟨p, n, o, []⟩ last added) {bs : Bytes} :
    last.finish = .ok bs ↔
      ∃ ds code, n.refs.map p.get? = ds.map some ∧
        (definedRefs n ds).map (fun e => added e.1) = code.map some ∧
        (Module.ofBytes? bs).isSome = true ∧ bs = (moduleOf o.memory ds code).encode := by
  have bodies : ∀ ds : List Declaration, n.refs.map p.get? = ds.map some →
      (defined ((List.range ds.length).zip ds)).map (fun e => last.bodies.lookup e.1) =
        (definedRefs n ds).map fun e => added e.1 := by
    intro ds refs
    have byHandle : ∀ i f, n.refs[i]? = some f → last.bodies.lookup i = added f := by
      intro i f at_i
      rw [row.bodies f i (complete.indexOf?_eq_some.2 at_i)]
      rfl
    exact map_defined (by simpa using congrArg List.length refs) byHandle
  rw [ModuleDraft.finish_eq_ok]
  simp only [toModule_eq_ok, row.program, row.numbering, row.options]
  constructor
  · rintro ⟨_, ⟨ds, code, refs, found, rfl⟩, valid, rfl⟩
    exact ⟨ds, code, refs, bodies ds refs ▸ found, valid, rfl⟩
  · rintro ⟨ds, code, refs, found, valid, rfl⟩
    exact ⟨_, ⟨ds, code, refs, (bodies ds refs).trans found, rfl⟩, valid, rfl⟩

theorem isPlain_moduleOf {β : Type} (memory : Option Limits) (ds : List Declaration)
    (code : List β) : (moduleOf memory ds code).IsPlain :=
  ⟨rfl, rfl, rfl⟩

theorem encode_moduleOf (memory : Option Limits) (ds : List Declaration) (cs : List Code) :
    (moduleOf memory ds (cs.map fun c => Bytes.sized c.encode)).encode =
      (moduleOf memory ds cs).write := by
  unfold Module.write
  congr 1
  simp [Module.withSizes, Module.withCode, moduleOf]

/-- A draft whose bodies are the given code is finished as the bytes of their module, if it is
valid. -/
theorem Bodies.finish_eq_ok_of_code {last : ModuleDraft} {added : FuncRef → Option Bytes}
    (complete : n.Complete) (row : Bodies ⟨p, n, o, []⟩ last added) {ds : List Declaration}
    (refs : n.refs.map p.get? = ds.map some) {cs : List Code}
    (coded : (definedRefs n ds).map (fun e => added e.1) =
      cs.map fun c => some (Bytes.sized c.encode)) {bs : Bytes} :
    last.finish = .ok bs ↔
      Module.ofBytes? bs = some (moduleOf o.memory ds cs) ∧
      bs = (moduleOf o.memory ds cs).write := by
  have some_inj : ∀ {α : Type} {xs ys : List α}, xs.map some = ys.map some → xs = ys :=
    fun h => List.map_injective_iff.2 (Option.some_injective _) h
  rw [row.finish_eq_ok complete]
  constructor
  · rintro ⟨ds', code, refs', found, valid, rfl⟩
    obtain rfl := some_inj (refs.symm.trans refs')
    obtain rfl : code = cs.map fun c => Bytes.sized c.encode := by
      refine some_inj (found.symm.trans (coded.trans ?_))
      rw [List.map_map]
      rfl
    rw [encode_moduleOf] at valid ⊢
    obtain ⟨mod, read⟩ := Option.isSome_iff_exists.1 valid
    obtain ⟨-, -, -, rfl⟩ := (Module.ofBytes?_write (isPlain_moduleOf ..)).1 read
    exact ⟨read, rfl⟩
  · rintro ⟨valid, rfl⟩
    refine ⟨ds, _, refs, coded.trans (by rw [List.map_map]; rfl), by rw [valid]; rfl,
      (encode_moduleOf ..).symm⟩

/-- What is listed for the handles of a numbering is declared. -/
theorem exists_get? {ds : List Declaration} (refs : n.refs.map p.get? = ds.map some)
    {d : Declaration} (mem : d ∈ ds) : ∃ f, p.get? f = some d := by
  have : some d ∈ n.refs.map p.get? := refs ▸ List.mem_map_of_mem mem
  obtain ⟨f, -, known⟩ := List.mem_map.1 this
  exact ⟨f, known⟩

/-- A handle in a row of handles has a declaration in the row of declarations. -/
theorem exists_mem_of_map_get? {fs : List FuncRef} {ds : List Declaration}
    (refs : fs.map p.get? = ds.map some) {f : FuncRef} (mem : f ∈ fs) :
    ∃ d ∈ ds, p.get? f = some d := by
  have listed : p.get? f ∈ ds.map some := refs ▸ List.mem_map_of_mem mem
  obtain ⟨d, mem, same⟩ := List.mem_map.1 listed
  exact ⟨d, mem, same.symm⟩

/-- The handles of a numbering stand with their declarations. -/
theorem mem_zip_refs {ds : List Declaration} (refs : n.refs.map p.get? = ds.map some)
    {e : FuncRef × Declaration} :
    e ∈ n.refs.zip ds ↔ e.1 ∈ n.refs ∧ p.get? e.1 = some e.2 := by
  have same : ∀ (i : Nat) f d, n.refs[i]? = some f → (ds[i]? = some d ↔ p.get? f = some d) := by
    intro i f d at_i
    have := congrArg (·[i]?) refs
    simp only [List.getElem?_map, at_i, Option.map_some] at this
    cases here : ds[i]? <;> simp_all
  rw [List.mem_iff_getElem?, List.mem_iff_getElem?]
  simp only [List.getElem?_zip_eq_some]
  constructor
  · rintro ⟨i, ref, decl⟩
    exact ⟨⟨i, ref⟩, (same i _ _ ref).1 decl⟩
  · rintro ⟨⟨i, ref⟩, known⟩
    exact ⟨i, ref, (same i _ _ ref).2 known⟩

/-- The defined functions of a numbering are its handles whose declarations are not imports. -/
theorem mem_definedRefs {ds : List Declaration} (refs : n.refs.map p.get? = ds.map some)
    {e : FuncRef × Declaration} :
    e ∈ definedRefs n ds ↔ e.1 ∈ n.refs ∧ p.get? e.1 = some e.2 ∧ e.2.isImport = false := by
  rw [definedRefs, List.mem_filter, Bool.not_eq_true', mem_zip_refs refs, and_assoc]

end ModuleDraft

end WasmForge

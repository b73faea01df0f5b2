import Mathlib
import WasmForge.Proofs.Declaring
import WasmForge.Proofs.Drafting
import WasmForge.Proofs.Linking

/-!
# What a finished module holds

The bytes of a finished draft are the header and five sections, and reading them gives back what was
put in: the types, imports and exports of the declarations in function order, and the bodies that
were added.

* `ModuleDraft.Describes`: the contents of a module, said from the declarations alone.
* `ModuleDraft.finish_reads_back`: what a reader finds in the bytes of a finished draft.
-/

namespace WasmForge

/-- The bytes of the parameter and result types of a declaration in a module. -/
def Declaration.wireType (d : Declaration) : Bytes × Bytes :=
  (d.params.map (·.type.wireCode), if d.result = .void then [] else [d.result.wireCode])

/-- The type of a declaration has the bytes that its parameters and result have. -/
theorem Declaration.Tidy.codes_funcType {d : Declaration} (tidy : d.Tidy) :
    (d.funcType.params.map (·.code), d.funcType.results.map (·.code)) = d.wireType := by
  have held : ∀ t : ValueType, t.isStorable = true → t.held.code = t.wireCode := by
    intro t storable
    cases t <;> first | rfl | cases storable
  have params : d.funcType.params.map (·.code) = d.params.map (·.type.wireCode) := by
    rw [tidy.params_funcType, List.map_map]
    exact List.map_congr_left fun x mem => held x.type (tidy.params x mem)
  have results : d.funcType.results.map (·.code) =
      if d.result = .void then [] else [d.result.wireCode] := by
    unfold funcType
    cases d.result <;> rfl
  exact Prod.ext params results

namespace ModuleDraft

/-- The module is that of the declarations `ds`, in function order, with the given memory. -/
structure Describes (ds : List Declaration) (memory : Option Limits) (m : Module Bytes) : Prop where
  /-- Every function has a type of its own. -/
  types : m.types.map (fun t => (t.params.map (·.code), t.results.map (·.code))) =
    ds.map Declaration.wireType
  /-- The imported functions, then the memory. -/
  imports : m.imports =
    ds.zipIdx.filterMap
        (fun (d, i) => if d.isImport then some ⟨"env", d.name, .func i⟩ else none) ++
      (match memory with
        | none => []
        | some limits => [⟨"env", "memory", .memory (.narrow limits)⟩])
  /-- The type indices of the defined functions. -/
  functions : m.functions = (ds.zipIdx.filter fun (d, _) => !d.isImport).map (·.2)
  /-- The exported functions. -/
  exports : m.exports = ds.zipIdx.filterMap fun (d, i) =>
    if d.isExport then some ⟨d.name, .func, i⟩ else none
  /-- Nothing else. -/
  plain : m.IsPlain

theorem describes_moduleOf {ds : List Declaration} (tidy : ∀ d ∈ ds, d.Tidy)
    (memory : Option Limits) (code : List Bytes) :
    Describes ds memory (moduleOf memory ds code) := by
  have swap : (List.range ds.length).zip ds = ds.zipIdx.map Prod.swap := by
    rw [List.zipIdx_eq_zip_range', ← List.range_eq_range', List.zip_swap]
  refine ⟨?_, ?_, ?_, ?_, isPlain_moduleOf ..⟩
  · show (ds.map (·.funcType)).map _ = _
    rw [List.map_map]
    exact List.map_congr_left fun d mem => (tidy d mem).codes_funcType
  · show imports memory _ = _
    rw [imports, swap, List.filterMap_map]
    cases memory <;> rfl
  · show (defined _).map _ = _
    rw [defined, swap, List.filter_map, List.map_map]
    rfl
  · show exports _ = _
    rw [exports, swap, List.filterMap_map]
    rfl

variable {p q : Program} {n : Numbering} {o : EmitOptions} {first last : ModuleDraft}
  {entries : List (FuncRef × Bytes)} {bs : Bytes}

/-- A draft that was started on a numbering of a program, got assembled bodies and was finished: a
reader takes its bytes apart into the header and five sections, to the last byte, and they hold the
declarations of the program in function order and the added bodies. -/
theorem finish_reads_back (built : p.Built) (drawn : n.Drawn q) (started : start p n o = .ok first)
    (assembled : ∀ e ∈ entries, ∃ (a : Assembler) (k : Numbering), a.finish k = .ok e.2)
    (added : entries.foldlM (fun m e => m.addBody e.1 e.2) first = .ok last)
    (finished : last.finish = .ok bs) :
    ∃ ds rest sections m code,
      n.refs.map p.get? = ds.map some ∧
      Reader.exactly Module.header bs = some ((), rest) ∧
      Reader.many Reader.taggedSection rest = some sections ∧
      sections.map (·.1) = [1, 2, 3, 7, 10] ∧
      Module.decodeSections bs = some m ∧
      Module.decode bs = some (m.withCode code) ∧
      Describes ds o.memory m ∧
      m.code.map (fun body => some (Bytes.sized body)) =
        ((n.refs.zip ds).filter fun (_, d) => !d.isImport).map fun (f, _) => entries.lookup f := by
  obtain ⟨-, rfl⟩ := start_eq_ok.1 started
  have coded : ∀ f b, entries.lookup f = some b → ∃ c : Code, b = Bytes.sized c.encode := by
    intro f b found
    obtain ⟨before, after, rfl, -⟩ := List.lookup_eq_some_iff.1 found
    obtain ⟨a, k, made⟩ := assembled (f, b) (by simp)
    obtain ⟨-, c, -, rfl⟩ := Assembler.finish_eq_ok.1 made
    exact ⟨c, rfl⟩
  have row := bodies_foldlM added
  obtain ⟨ds, code, refs, found, -, -⟩ := (row.finish_eq_ok drawn.complete).1 finished
  obtain ⟨cs, rfl⟩ : code ∈ Set.range (List.map fun c : Code => Bytes.sized c.encode) := by
    rw [Set.range_list_map]
    intro b mem
    have : some b ∈ (definedRefs n ds).map fun e => entries.lookup e.1 :=
      found ▸ List.mem_map_of_mem mem
    obtain ⟨e, -, given⟩ := List.mem_map.1 this
    obtain ⟨c, rfl⟩ := coded e.1 b given
    exact ⟨c, rfl⟩
  have bodies := found.trans (List.map_map ..)
  obtain ⟨accepted, rfl⟩ := (row.finish_eq_ok_of_code drawn.complete refs bodies).1 finished
  obtain ⟨fits, codeFits, -, -⟩ := (Module.ofBytes?_write (isPlain_moduleOf ..)).1 accepted
  have tidy : ∀ d ∈ ds, d.Tidy := by
    intro d mem
    obtain ⟨f, known⟩ := exists_get? refs mem
    exact built.tidy.decls f d known
  refine ⟨ds, _, _, (moduleOf o.memory ds cs).withCode (cs.map Code.encode), cs, refs, ?_,
    Module.many_sections.2 ⟨fits.sections, rfl⟩, rfl,
    (Module.decodeSections_encode (isPlain_moduleOf ..)).2 ⟨fits, rfl⟩,
    (Module.decode_write (isPlain_moduleOf ..)).2 ⟨fits, codeFits, rfl⟩,
    describes_moduleOf tidy o.memory _, ?_⟩
  · rw [Module.write, Module.encode_eq_sections ⟨rfl, rfl, rfl⟩]
    rfl
  · exact (List.map_map ..).trans bodies.symm

/-- Bodies for the two defined functions of `Program.sample`, not in function order. -/
def sampleEntries : List (FuncRef × Bytes) :=
  [(⟨7, 2⟩, [5, 0, 0x20, 0, 0x0F, 0x0B]),
    (⟨7, 0⟩, [9, 0, 0x41, 0xAC, 0x02, 0x1A, 0x20, 0, 0x0F, 0x0B])]

/-- The draft of `Program.sample` with the bodies in `sampleEntries`. -/
def sampleDraft : ModuleDraft :=
  ⟨Program.sample, Numbering.sample, ⟨some ⟨1, some 2⟩⟩,
    sampleEntries.reverse.map fun e => (Numbering.sample.number e.1, e.2)⟩

theorem finish_reads_back_sample :
    ∃ bs ds rest sections m code,
      sampleDraft.finish = .ok bs ∧
      Numbering.sample.refs.map Program.sample.get? = ds.map some ∧
      Reader.exactly Module.header bs = some ((), rest) ∧
      Reader.many Reader.taggedSection rest = some sections ∧
      sections.map (·.1) = [1, 2, 3, 7, 10] ∧
      Module.decodeSections bs = some m ∧
      Module.decode bs = some (m.withCode code) ∧
      Describes ds (some ⟨1, some 2⟩) m ∧
      m.code.map (fun body => some (Bytes.sized body)) =
        ((Numbering.sample.refs.zip ds).filter fun (_, d) => !d.isImport).map
          fun (f, _) => sampleEntries.lookup f := by
  have started : start Program.sample Numbering.sample ⟨some ⟨1, some 2⟩⟩ =
      .ok ⟨Program.sample, Numbering.sample, ⟨some ⟨1, some 2⟩⟩, []⟩ := by cbv
  have assembled : ∀ e ∈ sampleEntries,
      ∃ (a : Assembler) (k : Numbering), a.finish k = .ok e.2 := by
    let own (i : Nat) (code : List SymbolicInstr) : Assembler :=
      ⟨⟨Program.sample, ⟨7, i⟩, ⟨"f", [⟨.int32, "n"⟩], .int32, .internal, [], none⟩⟩,
        code ++ [.op (.localGet ⟨⟨7, i⟩, .param 0⟩), .op .ret], 0⟩
    simp only [sampleEntries, List.forall_mem_cons, List.not_mem_nil, false_imp_iff, implies_true,
      and_true]
    exact ⟨⟨own 2 [], Numbering.sample, by decide +kernel⟩,
      ⟨own 0 [.op (.i32Const 300), .op .drop], Numbering.sample, by decide +kernel⟩⟩
  have added : sampleEntries.foldlM (fun (m : ModuleDraft) e => m.addBody e.1 e.2)
      ⟨Program.sample, Numbering.sample, ⟨some ⟨1, some 2⟩⟩, []⟩ = .ok sampleDraft := by cbv
  obtain ⟨bs, finished⟩ : ∃ bs, sampleDraft.finish = .ok bs :=
    exists_eq_ok_of_toBool (by decide +kernel)
  obtain ⟨ds, rest, sections, m, code, all⟩ :=
    finish_reads_back Program.built_sample Numbering.drawn_sample started assembled added finished
  exact ⟨bs, ds, rest, sections, m, code, finished, all⟩

end ModuleDraft

end WasmForge

import Mathlib
import WasmForge.Module.Validity
import WasmForge.Proofs.Reading

/-!
# Reading undoes writing, for modules

A module without tables, memories and a start function is written as five sections.  It is read back
exactly when all sizes and indices in it fit, and otherwise it is refused.

* `Module.many_sections`: which sections a reader finds.
* `Module.decodeSections_encode`, `Module.decode_write`: which module they make up.
* `Module.ofBytes?_write`: which modules are accepted.
-/

namespace WasmForge

namespace Module

/-- The module with a size in front of each body. -/
def withSizes (m : Module Bytes) : Module Bytes := m.withCode (m.code.map Bytes.sized)

/-- Is the module one of functions and imports only? -/
structure IsPlain {β : Type} (m : Module β) : Prop where
  /-- No tables. -/
  tables : m.tables = []
  /-- No memories of its own. -/
  memories : m.memories = []
  /-- No start function. -/
  start : m.start = none

/-- The tags and payloads of the sections of a plain module. -/
def sections (m : Module Bytes) : List (UInt8 × Bytes) :=
  [(1, Bytes.vector (m.types.map FuncType.encode)),
    (2, Bytes.vector (m.imports.map Import.encode)),
    (3, Bytes.vector (m.functions.map Bytes.u32)),
    (7, Bytes.vector (m.exports.map Export.encode)),
    (10, Bytes.vector m.code)]

theorem encode_eq_sections {m : Module Bytes} (plain : m.IsPlain) :
    m.encode = header ++ (m.sections.map fun s => Bytes.taggedSection s.1 s.2).flatten := by
  simp [encode, sections, optionalSection, plain.tables, plain.memories, plain.start]

theorem readsWhen_taggedSection (s : UInt8 × Bytes) :
    Reader.ReadsWhen (s.2.length < 2 ^ 32) Reader.taggedSection (Bytes.taggedSection s.1 s.2) s :=
  ((Reader.readsWhen_sized s.2).map fun payload => (s.1, payload)).cons

/-- A reader finds the sections of a plain module when their sizes fit. -/
theorem many_sections {m : Module Bytes} {found : List (UInt8 × Bytes)} :
    Reader.many Reader.taggedSection
        (m.sections.map fun s => Bytes.taggedSection s.1 s.2).flatten = some found ↔
      (∀ s ∈ m.sections, s.2.length < 2 ^ 32) ∧ found = m.sections :=
  Reader.many_eq_some (fun s _ => readsWhen_taggedSection s) fun _ _ => List.cons_ne_nil _ _

/-- Can the module be written with all sizes and indices in 32 bits, and all names in the allowed
size?  Bodies are without the sizes in front of them. -/
structure Fits (m : Module Bytes) : Prop where
  /-- The sizes of the sections. -/
  sections : ∀ s ∈ m.withSizes.sections, s.2.length < 2 ^ 32
  /-- The types. -/
  types : m.types.length < 2 ^ 32 ∧
    ∀ t ∈ m.types, t.params.length < 2 ^ 32 ∧ t.results.length < 2 ^ 32
  /-- The imports. -/
  imports : m.imports.length < 2 ^ 32 ∧ ∀ i ∈ m.imports, i.Fits
  /-- The type indices of functions. -/
  functions : m.functions.length < 2 ^ 32 ∧ ∀ i ∈ m.functions, i < 2 ^ 32
  /-- The exports. -/
  exports : m.exports.length < 2 ^ 32 ∧ ∀ e ∈ m.exports, e.Fits
  /-- The sizes of the bodies. -/
  code : m.code.length < 2 ^ 32 ∧ ∀ c ∈ m.code, c.length < 2 ^ 32

/-- Five sections make up a module: each payload is read to its end. -/
theorem foldlM_addSection (types imports functions exports code : Bytes) :
    [(1, types), (2, imports), (3, functions), (7, exports), (10, code)].foldlM addSection
        (sectionOrder, empty Bytes) =
      (Reader.whole (.vector .funcType) types).bind fun types =>
      (Reader.whole (.vector .importEntry) imports).bind fun imports =>
      (Reader.whole (.vector .u32) functions).bind fun functions =>
      (Reader.whole (.vector .exportEntry) exports).bind fun exports =>
      (Reader.whole (.vector .sized) code).bind fun code =>
      some ([11], {
        types := types
        imports := imports
        functions := functions
        tables := []
        memories := []
        exports := exports
        start := none
        code := code }) := by
  simp [addSection, addPayload, sectionOrder, empty, Option.bind_eq_bind, Option.bind_assoc]

/-- A plain module is read back down to the bytes of its bodies exactly when it fits, and otherwise
it is refused. -/
theorem decodeSections_encode {m m' : Module Bytes} (plain : m.IsPlain) :
    decodeSections m.withSizes.encode = some m' ↔ m.Fits ∧ m' = m := by
  have types := Reader.readsWhen_vector fun t (_ : t ∈ m.types) => Reader.readsWhen_funcType t
  have imports := Reader.readsWhen_vector fun i (_ : i ∈ m.imports) =>
    Reader.readsWhen_importEntry i
  have functions := Reader.readsWhen_vector fun i (_ : i ∈ m.functions) => Reader.readsWhen_u32 i
  have exports := Reader.readsWhen_vector fun e (_ : e ∈ m.exports) =>
    Reader.readsWhen_exportEntry e
  have code := Reader.readsWhen_vector fun c (_ : c ∈ m.code) => Reader.readsWhen_sized c
  have head : Reader.Reads (Reader.exactly header) header () := fun _ => rfl
  have made : m.withSizes.sections.foldlM addSection (sectionOrder, empty Bytes) = _ :=
    foldlM_addSection _ _ _ _ _
  rw [encode_eq_sections (m := m.withSizes) ⟨plain.tables, plain.memories, plain.start⟩]
  show (Reader.exactly header (header ++ _)).bind (fun x =>
    (Reader.many Reader.taggedSection x.2).bind fun found =>
      (found.foldlM addSection (sectionOrder, empty Bytes)).bind fun y => some y.2) = some m' ↔ _
  rw [head, Option.bind_some, Option.bind_eq_some_iff]
  constructor
  · rintro ⟨found, sections, h⟩
    obtain ⟨sizes, rfl⟩ := many_sections.1 sections
    rw [made] at h
    simp only [Option.bind_eq_some_iff, Option.some.injEq] at h
    obtain ⟨y, ⟨ts, hts, is, his, fs, hfs, es, hes, cs, hcs, rfl⟩, rfl⟩ := h
    obtain ⟨typesFit, rfl⟩ := types.whole.1 hts
    obtain ⟨importsFit, rfl⟩ := imports.whole.1 his
    obtain ⟨functionsFit, rfl⟩ := functions.whole.1 hfs
    obtain ⟨exportsFit, rfl⟩ := exports.whole.1 hes
    obtain ⟨codeFit, rfl⟩ := code.whole.1 hcs
    refine ⟨⟨sizes, typesFit, importsFit, functionsFit, exportsFit, codeFit⟩, ?_⟩
    cases m
    cases plain
    simp_all [withSizes, withCode]
  · rintro ⟨fits, rfl⟩
    refine ⟨_, many_sections.2 ⟨fits.sections, rfl⟩, ?_⟩
    rw [made]
    simp only [Option.bind_eq_some_iff, Option.some.injEq]
    refine ⟨_, ⟨_, types.whole.2 ⟨fits.types, rfl⟩, _, imports.whole.2 ⟨fits.imports, rfl⟩, _,
      functions.whole.2 ⟨fits.functions, rfl⟩, _, exports.whole.2 ⟨fits.exports, rfl⟩, _,
      code.whole.2 ⟨fits.code, rfl⟩, rfl⟩, ?_⟩
    cases m'
    cases plain
    simp_all

/-- The binary form of a module whose bodies are code. -/
def write (m : Module Code) : Bytes := (m.withCode (m.code.map Code.encode)).withSizes.encode

theorem mapM_decode_encode {cs ds : List Code} :
    (cs.map Code.encode).mapM Code.decode = some ds ↔ (∀ c ∈ cs, c.Fits) ∧ ds = cs := by
  induction cs generalizing ds with
  | nil => simp [eq_comm]
  | cons c cs ih =>
    simp only [List.map_cons, List.mapM_cons, Option.bind_eq_bind, Option.bind_eq_some_iff,
      Option.pure_def, Option.some.injEq, Code.decode_encode, ih, List.forall_mem_cons]
    constructor
    · rintro ⟨_, ⟨first, rfl⟩, _, ⟨rest, rfl⟩, rfl⟩
      exact ⟨⟨first, rest⟩, rfl⟩
    · rintro ⟨⟨first, rest⟩, rfl⟩
      exact ⟨c, ⟨first, rfl⟩, cs, ⟨rest, rfl⟩, rfl⟩

/-- A plain module is read back exactly when it and its bodies fit, and otherwise it is refused. -/
theorem decode_write {m m' : Module Code} (plain : m.IsPlain) :
    decode m.write = some m' ↔
      (m.withCode (m.code.map Code.encode)).Fits ∧ (∀ c ∈ m.code, c.Fits) ∧ m' = m := by
  have down : ∀ k, decodeSections (m.withCode (m.code.map Code.encode)).withSizes.encode = some k ↔
      _ := fun k => decodeSections_encode ⟨plain.tables, plain.memories, plain.start⟩
  show (decodeSections _).bind (fun k => (k.code.mapM Code.decode).bind fun code =>
    some (k.withCode code)) = some m' ↔ _
  simp only [Option.bind_eq_some_iff, Option.some.injEq]
  constructor
  · rintro ⟨k, sections, cs, bodies, rfl⟩
    obtain ⟨fits, rfl⟩ := (down k).1 sections
    obtain ⟨all, rfl⟩ := mapM_decode_encode.1 bodies
    exact ⟨fits, all, rfl⟩
  · rintro ⟨fits, all, rfl⟩
    exact ⟨_, (down _).2 ⟨fits, rfl⟩, _, mapM_decode_encode.2 ⟨all, rfl⟩, rfl⟩

/-- A plain module is accepted exactly when it and its bodies fit and it is valid. -/
theorem ofBytes?_write {m m' : Module Code} (plain : m.IsPlain) :
    ofBytes? m.write = some m' ↔
      (m.withCode (m.code.map Code.encode)).Fits ∧ (∀ c ∈ m.code, c.Fits) ∧ m.isValid = true ∧
        m' = m := by
  unfold ofBytes?
  cases read : decode m.write with
  | none =>
    have := fun fits all => read.symm.trans ((decode_write plain).2 ⟨fits, all, rfl⟩)
    simp only [reduceCtorEq, false_iff]
    rintro ⟨fits, all, -⟩
    cases this fits all
  | some k =>
    obtain ⟨fits, all, rfl⟩ := (decode_write plain).1 read
    by_cases valid : k.isValid = true
    · rw [and_iff_right fits, and_iff_right all, and_iff_right valid]
      simp [valid, eq_comm]
    · simp [valid]

theorem isValid_of_ofBytes? {bs : Bytes} {m : Module Code} (read : ofBytes? bs = some m) :
    m.isValid = true := by
  unfold ofBytes? at read
  split at read
  · split at read
    · rename_i valid
      cases read
      exact valid
    · cases read
  · cases read

end Module

/-! ## Sizes -/

namespace Bytes

theorem length_le_vector {items : List Bytes} {b : Bytes} (mem : b ∈ items) :
    b.length ≤ (vector items).length := by
  have : b.length ≤ (items.map List.length).sum :=
    List.le_sum_of_mem (List.mem_map_of_mem mem)
  rw [vector, List.length_append, List.length_flatten]
  omega

theorem count_le_vector {items : List Bytes} (filled : ∀ b ∈ items, b ≠ []) :
    items.length ≤ (vector items).length := by
  have : items.length ≤ (items.map List.length).sum := by
    induction items with
    | nil => exact Nat.le_refl 0
    | cons b items ih =>
      rw [List.forall_mem_cons] at filled
      have := List.length_pos_of_ne_nil filled.1
      have := ih filled.2
      simp only [List.length_cons, List.map_cons, List.sum_cons]
      omega
  rw [vector, List.length_append, List.length_flatten]
  omega

theorem length_le_sized (b : Bytes) : b.length ≤ (sized b).length := by
  rw [sized, List.length_append]
  omega

theorem u32_ne_nil (n : Nat) : u32 n ≠ [] := by
  rw [u32, Leb128.encodeNat]
  split <;> exact List.cons_ne_nil _ _

end Bytes

namespace Module

/-- No section is longer than the module. -/
theorem length_le_encode {m : Module Bytes} (plain : m.IsPlain) {s : UInt8 × Bytes}
    (mem : s ∈ m.sections) : s.2.length ≤ m.encode.length := by
  have part : (Bytes.taggedSection s.1 s.2).length ≤
      ((m.sections.map fun s => Bytes.taggedSection s.1 s.2).map List.length).sum :=
    List.le_sum_of_mem (List.mem_map_of_mem (List.mem_map_of_mem mem))
  have payload : s.2.length ≤ (Bytes.taggedSection s.1 s.2).length :=
    (Bytes.length_le_sized s.2).trans (by simp [Bytes.taggedSection])
  rw [encode_eq_sections plain, List.length_append, List.length_flatten]
  omega

/-- In a module of fewer than `2 ^ 32` bytes, no section has more entries or longer ones. -/
theorem entries_lt {m : Module Bytes} (plain : m.IsPlain) (size : m.encode.length < 2 ^ 32)
    {α : Type} {tag : UInt8} {items : List α} {encode : α → Bytes} (filled : ∀ a, encode a ≠ [])
    (mem : (tag, Bytes.vector (items.map encode)) ∈ m.sections) :
    items.length < 2 ^ 32 ∧ ∀ a ∈ items, (encode a).length < 2 ^ 32 := by
  have whole : (Bytes.vector (items.map encode)).length < 2 ^ 32 :=
    (length_le_encode plain mem).trans_lt size
  have filled : ∀ b ∈ items.map encode, b ≠ [] := by
    intro b mem
    obtain ⟨a, -, rfl⟩ := List.mem_map.1 mem
    exact filled a
  have count := (Bytes.count_le_vector filled).trans_lt whole
  rw [List.length_map] at count
  exact ⟨count, fun a mem => (Bytes.length_le_vector (List.mem_map_of_mem mem)).trans_lt whole⟩

theorem length_le_encode_funcType (t : FuncType) :
    t.params.length ≤ t.encode.length ∧ t.results.length ≤ t.encode.length := by
  have codes : ∀ ts : List ValType, ts.length ≤ (Bytes.vector (ts.map ([·.code]))).length := by
    intro ts
    have filled : ∀ b ∈ ts.map ([·.code]), b ≠ [] := by simp
    have := Bytes.count_le_vector filled
    rwa [List.length_map] at this
  have params := codes t.params
  have results := codes t.results
  rw [FuncType.encode, List.length_cons, List.length_append]
  omega

theorem types_length_lt {m : Module Bytes} (plain : m.IsPlain) (size : m.encode.length < 2 ^ 32) :
    m.types.length < 2 ^ 32 :=
  (entries_lt plain size (fun _ => List.cons_ne_nil _ _) (.head _)).1

/-- A plain module of fewer than `2 ^ 32` bytes fits if its names and indices do. -/
theorem fits_of_length {m : Module Bytes} (plain : m.IsPlain)
    (size : m.withSizes.encode.length < 2 ^ 32) (imports : ∀ i ∈ m.imports, i.Fits)
    (functions : ∀ i ∈ m.functions, i < 2 ^ 32) (exports : ∀ e ∈ m.exports, e.Fits) : m.Fits := by
  have plain' : m.withSizes.IsPlain := ⟨plain.tables, plain.memories, plain.start⟩
  have sized : ∀ b : Bytes, Bytes.sized b ≠ [] := fun b =>
    List.append_ne_nil_of_left_ne_nil (Bytes.u32_ne_nil _) _
  have typeFilled : ∀ t : FuncType, t.encode ≠ [] := fun _ => List.cons_ne_nil _ _
  have importFilled : ∀ i : Import, i.encode ≠ [] := by
    intro i
    simp [Import.encode, Bytes.name, sized]
  have exportFilled : ∀ e : Export, e.encode ≠ [] := by
    intro e
    simp [Export.encode, Bytes.name, sized]
  have types := entries_lt plain' size typeFilled (.head _)
  have code := entries_lt plain' size sized (.tail _ (.tail _ (.tail _ (.tail _ (.head _)))))
  refine ⟨fun s mem => (length_le_encode plain' mem).trans_lt size, ⟨types.1, ?_⟩,
    ⟨(entries_lt plain' size importFilled (.tail _ (.head _))).1, imports⟩,
    ⟨(entries_lt plain' size Bytes.u32_ne_nil (.tail _ (.tail _ (.head _)))).1, functions⟩,
    ⟨(entries_lt plain' size exportFilled (.tail _ (.tail _ (.tail _ (.head _))))).1, exports⟩,
    ⟨code.1, fun c mem => (Bytes.length_le_sized c).trans_lt (code.2 c mem)⟩⟩
  intro t mem
  have := types.2 t mem
  have := length_le_encode_funcType t
  omega

end Module

end WasmForge

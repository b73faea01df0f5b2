import Mathlib
import WasmForge.Emit.Compile
import WasmForge.Proofs.Drafting
import WasmForge.Proofs.Lowering

/-!
# The module that a program is emitted as

Lowering every function and adding the bodies to a draft, in any order, makes one module: that of
the declarations in function order, with the linked bodies.

* `Program.emitted`: that module.
* `Program.bodies_addLowered`, `Program.exists_addLowered`: adding lowered bodies one after the
  other.
* `Program.finish_addLowered`: the bytes are those of the emitted module, and reading them gives it
  back.
* `Program.compile_eq_ok`: the stages of compilation.
-/

namespace WasmForge

open ModuleDraft

/-- Every function of the program has an index in a numbering that a draft accepts. -/
theorem ModuleDraft.Accepts.numberedBy {p : Program} {n : Numbering} {o : EmitOptions}
    {imports defined : List Declaration} (accepts : Accepts p n o imports defined)
    (complete : n.Complete) : p.NumberedBy n := by
  intro g d known
  have own := Program.owns_iff.1 (Option.isSome_iff_exists.2 ⟨d, known⟩)
  have mem : g ∈ n.refs := by
    rw [complete.mem_refs, accepts.program, accepts.size]
    exact own
  obtain ⟨i, at_i⟩ := List.mem_iff_getElem?.1 mem
  rw [complete.indexOf?_eq_some.2 at_i]
  rfl

namespace Program

variable {p : Program} {n : Numbering} {o : EmitOptions} {first last : ModuleDraft}

/-- The function has a body that makes sense in it. -/
def HasBody (p : Program) (f : FuncRef) (d : Declaration) : Prop :=
  ∃ body, d.body = some body ∧ WellTyped p f body

/-- The linked body of a function. -/
def codeOf (p : Program) (n : Numbering) (f : FuncRef) (d : Declaration) : Code :=
  (⟨p, f, d⟩ : Scope).code n (d.body.getD (.block []))

/-- The module of the program with the declarations `ds`, in function order. -/
def emitted (p : Program) (n : Numbering) (o : EmitOptions) (ds : List Declaration) : Module Code :=
  moduleOf o.memory ds ((definedRefs n ds).map fun e => p.codeOf n e.1 e.2)

theorem lower_eq_ok_codeOf (tidy : p.Tidy) (numbered : p.NumberedBy n) {f : FuncRef}
    {d : Declaration} (known : p.get? f = some d) (defined : d.isImport = false) {bs : Bytes} :
    p.lower f d n = .ok bs ↔ p.HasBody f d ∧ bs = Bytes.sized (p.codeOf n f d).encode := by
  rw [lower_eq_ok known defined (tidy.decls f d known).storable numbered]
  constructor
  · rintro ⟨body, has, typed, rfl⟩
    exact ⟨⟨body, has, typed⟩, by rw [codeOf, has]; rfl⟩
  · rintro ⟨⟨body, has, typed⟩, rfl⟩
    exact ⟨body, has, typed, by rw [codeOf, has]; rfl⟩

/-! ## Adding lowered bodies -/

/-- Adding the lowered body of a function: nothing happens for what is not defined. -/
theorem addLowered_eq_ok (tidy : p.Tidy) (numbered : p.NumberedBy first.numbering) {f : FuncRef} :
    p.addLowered first f = .ok last ↔
      (∃ d, p.get? f = some d ∧ d.isImport = false ∧ p.HasBody f d ∧
        first.addBody f (Bytes.sized (p.codeOf first.numbering f d).encode) = .ok last) ∨
      ((∀ d, p.get? f = some d → d.isImport = true) ∧ last = first) := by
  unfold addLowered
  cases known : p.get? f with
  | none =>
    show Except.ok first = Except.ok last ↔ _
    rw [Except.ok.injEq]
    constructor
    · rintro rfl
      exact .inr ⟨by simp, rfl⟩
    · rintro (⟨d, ⟨⟩, -⟩ | ⟨-, rfl⟩)
      rfl
  | some d =>
    dsimp only
    by_cases imported : d.isImport = true
    · rw [if_pos imported, Except.ok.injEq]
      constructor
      · rintro rfl
        refine .inr ⟨?_, rfl⟩
        rintro _ ⟨⟩
        exact imported
      · rintro (⟨_, ⟨⟩, defined, -⟩ | ⟨-, rfl⟩)
        · rw [imported] at defined
          cases defined
        · rfl
    · have defined : d.isImport = false := by simpa using imported
      rw [if_neg imported, bind_eq_ok]
      constructor
      · rintro ⟨b, lowered, added⟩
        obtain ⟨has, rfl⟩ := (lower_eq_ok_codeOf tidy numbered known defined).1 lowered
        exact .inl ⟨d, rfl, defined, has, added⟩
      · rintro (⟨_, ⟨⟩, -, has, added⟩ | ⟨all, -⟩)
        · exact ⟨_, (lower_eq_ok_codeOf tidy numbered known defined).2 ⟨has, rfl⟩, added⟩
        · exact absurd (all d rfl) imported

/-- After a row of additions, the bodies are the lowered ones of the functions in it. -/
theorem bodies_addLowered (tidy : p.Tidy) {fs : List FuncRef}
    (numbered : p.NumberedBy first.numbering) (row : fs.foldlM p.addLowered first = .ok last) :
    ∃ added, Bodies first last added ∧
      (∀ f b, added f = some b → ∃ d, p.get? f = some d ∧ d.isImport = false ∧ p.HasBody f d ∧
        b = Bytes.sized (p.codeOf first.numbering f d).encode) ∧
      ∀ f ∈ fs, ∀ d, p.get? f = some d → d.isImport = false → ∃ b, added f = some b := by
  induction fs generalizing first with
  | nil =>
    cases row
    exact ⟨fun _ => none, Bodies.refl last, by simp, by simp⟩
  | cons g fs ih =>
    rw [List.foldlM_cons, bind_eq_ok] at row
    obtain ⟨next, head, tail⟩ := row
    rcases (addLowered_eq_ok tidy numbered).1 head with ⟨d, known, defined, has, once⟩ | ⟨none, rfl⟩
    · have same : next.numbering = first.numbering := by
        obtain ⟨_, _, _, _, _, _, rfl⟩ := addBody_eq_ok.1 once
        rfl
      obtain ⟨added, rest, made, all⟩ := ih (same ▸ numbered) tail
      refine ⟨_, Bodies.cons once rest, ?_, ?_⟩
      · intro f b given
        split at given
        · rename_i here
          cases given
          exact ⟨d, here ▸ known, defined, here ▸ has, here ▸ rfl⟩
        · exact same ▸ made f b given
      · intro f mem e hf he
        split
        · exact ⟨_, rfl⟩
        · rename_i other
          exact all f ((List.mem_cons.1 mem).resolve_left other) e hf he
    · obtain ⟨added, rest, made, all⟩ := ih numbered tail
      refine ⟨added, rest, made, ?_⟩
      intro f mem e hf he
      rcases List.mem_cons.1 mem with rfl | mem
      · rw [none e hf] at he
        cases he
      · exact all f mem e hf he

/-- Lowered bodies can be added for functions that have none yet, if all of them make sense. -/
theorem exists_addLowered (tidy : p.Tidy) (numbered : p.NumberedBy n) {fs : List FuncRef}
    (nodup : fs.Nodup)
    (bodies : ∀ f ∈ fs, ∀ d, p.get? f = some d → d.isImport = false → p.HasBody f d)
    (program : first.program = p) (numbering : first.numbering = n)
    (fresh : ∀ f ∈ fs, ∀ i, n.indexOf? f = some i → first.bodies.lookup i = none) :
    ∃ last, fs.foldlM p.addLowered first = .ok last := by
  subst numbering
  induction fs generalizing first with
  | nil => exact ⟨first, rfl⟩
  | cons g fs ih =>
    rw [List.nodup_cons] at nodup
    rw [List.forall_mem_cons] at bodies fresh
    by_cases defined : ∃ d, p.get? g = some d ∧ d.isImport = false
    · obtain ⟨d, known, defined⟩ := defined
      obtain ⟨i, index⟩ := Option.isSome_iff_exists.1 (numbered g d known)
      have once : first.addBody g (Bytes.sized (p.codeOf first.numbering g d).encode) =
          .ok { first with bodies := (i, _) :: first.bodies } :=
        addBody_eq_ok.2 ⟨i, d, index, program ▸ known, defined, fresh.1 i index, rfl⟩
      have others : ∀ b, ∀ f ∈ fs, ∀ k, first.numbering.indexOf? f = some k →
          ((i, b) :: first.bodies).lookup k = none := by
        intro b f mem k at_f
        rw [List.lookup_cons, beq_false_of_ne, fresh.2 f mem k at_f]
        rintro rfl
        have same := (Numbering.getElem?_refs_of_indexOf? at_f).symm.trans
          (Numbering.getElem?_refs_of_indexOf? index)
        exact nodup.1 (Option.some.inj same ▸ mem)
      have rest : ∀ b, ∃ last,
          fs.foldlM p.addLowered { first with bodies := (i, b) :: first.bodies } = .ok last :=
        fun b => ih nodup.2 bodies.2 program numbered (others b)
      obtain ⟨last, tail⟩ := rest (Bytes.sized (p.codeOf first.numbering g d).encode)
      refine ⟨last, ?_⟩
      rw [List.foldlM_cons, bind_eq_ok]
      exact ⟨_, (addLowered_eq_ok tidy numbered).2
        (.inl ⟨d, known, defined, bodies.1 d known defined, once⟩), tail⟩
    · obtain ⟨last, tail⟩ := ih nodup.2 bodies.2 program numbered fresh.2
      refine ⟨last, ?_⟩
      rw [List.foldlM_cons, bind_eq_ok]
      refine ⟨first, (addLowered_eq_ok tidy numbered).2 (.inr ⟨?_, rfl⟩), tail⟩
      intro d known
      by_contra other
      exact defined ⟨d, known, by simpa using other⟩

/-! ## The finished module -/

/-- When all defined functions have been lowered and added, the bytes are those of the emitted
module, and reading them gives it back. -/
theorem finish_addLowered (tidy : p.Tidy) (complete : n.Complete) (numbered : p.NumberedBy n)
    {fs : List FuncRef} (row : fs.foldlM p.addLowered ⟨p, n, o, []⟩ = .ok last) {bs : Bytes}
    (finished : last.finish = .ok bs) :
    ∃ ds, n.refs.map p.get? = ds.map some ∧ (∀ e ∈ definedRefs n ds, p.HasBody e.1 e.2) ∧
      Module.ofBytes? bs = some (p.emitted n o ds) ∧ bs = (p.emitted n o ds).write := by
  obtain ⟨added, bodies, made, -⟩ := bodies_addLowered tidy numbered row
  obtain ⟨ds, code, refs, found, -, -⟩ := (bodies.finish_eq_ok complete).1 finished
  have each : ∀ e ∈ definedRefs n ds,
      p.HasBody e.1 e.2 ∧ added e.1 = some (Bytes.sized (p.codeOf n e.1 e.2).encode) := by
    intro e mem
    have : added e.1 ∈ code.map some := found ▸ List.mem_map_of_mem mem
    obtain ⟨b, -, given⟩ := List.mem_map.1 this
    obtain ⟨d, known, -, has, rfl⟩ := made e.1 b given.symm
    obtain rfl := Option.some.inj (known.symm.trans ((mem_definedRefs refs).1 mem).2.1)
    exact ⟨has, given.symm⟩
  have coded : (definedRefs n ds).map (fun e => added e.1) =
      ((definedRefs n ds).map fun e => p.codeOf n e.1 e.2).map
        fun c => some (Bytes.sized c.encode) := by
    rw [List.map_map]
    exact List.map_congr_left fun e mem => (each e mem).2
  obtain ⟨accepted, rfl⟩ := (bodies.finish_eq_ok_of_code complete refs coded).1 finished
  exact ⟨ds, refs, fun e mem => (each e mem).1, accepted, rfl⟩

/-- If the emitted module is accepted, lowering and adding every function makes its bytes. -/
theorem finish_of_emitted (tidy : p.Tidy) (complete : n.Complete) (numbered : p.NumberedBy n)
    {ds : List Declaration} (refs : n.refs.map p.get? = ds.map some)
    (bodies : ∀ e ∈ definedRefs n ds, p.HasBody e.1 e.2)
    (accepted : Module.ofBytes? (p.emitted n o ds).write = some (p.emitted n o ds)) :
    ∃ last, n.refs.foldlM p.addLowered ⟨p, n, o, []⟩ = .ok last ∧
      last.finish = .ok (p.emitted n o ds).write := by
  have inOrder : ∀ f ∈ n.refs, ∀ d, p.get? f = some d → d.isImport = false → p.HasBody f d :=
    fun f mem d known defined => bodies (f, d) ((mem_definedRefs refs).2 ⟨mem, known, defined⟩)
  obtain ⟨last, row⟩ : ∃ last, n.refs.foldlM p.addLowered ⟨p, n, o, []⟩ = .ok last :=
    exists_addLowered tidy numbered complete.nodup_refs inOrder rfl rfl fun _ _ _ _ => rfl
  refine ⟨last, row, ?_⟩
  obtain ⟨added, whole, made, all⟩ := bodies_addLowered tidy numbered row
  have coded : (definedRefs n ds).map (fun e => added e.1) =
      ((definedRefs n ds).map fun e => p.codeOf n e.1 e.2).map
        fun c => some (Bytes.sized c.encode) := by
    rw [List.map_map]
    refine List.map_congr_left ?_
    intro e mem
    obtain ⟨mem, known, defined⟩ := (mem_definedRefs refs).1 mem
    obtain ⟨b, given⟩ := all e.1 mem e.2 known defined
    obtain ⟨d, known', -, -, rfl⟩ := made e.1 b given
    obtain rfl := Option.some.inj (known.symm.trans known')
    exact given
  exact (whole.finish_eq_ok_of_code complete refs coded).2 ⟨accepted, rfl⟩

/-- The stages of compilation. -/
theorem compile_eq_ok {bs : Bytes} :
    p.compile o = .ok bs ↔
      o.validate = .ok () ∧ ∃ n first last, p.number = .ok n ∧ start p n o = .ok first ∧
        n.refs.foldlM p.addLowered first = .ok last ∧ last.finish = .ok bs := by
  simp only [compile, compileWithMap, map_eq_ok, bind_eq_ok, mapError_eq_ok, pure, Except.pure,
    Except.ok.injEq]
  constructor
  · rintro ⟨_, ⟨⟨⟩, valid, n, number, first, started, last, row, b, finished, rfl⟩, rfl⟩
    exact ⟨valid, n, first, last, number, started, row, finished⟩
  · rintro ⟨valid, n, first, last, number, started, row, finished⟩
    exact ⟨_, ⟨(), valid, n, number, first, started, last, row, bs, finished, rfl⟩, rfl⟩

end Program

end WasmForge

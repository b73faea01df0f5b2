import Mathlib
import WasmForge.Program.Numbering
import WasmForge.Proofs.Declaring

/-!
# Numberings are bijections

A draft gives out each index once, to a declaration that has none, and ends only when all
declarations have one.  So a numbering lists every position of its program exactly once, and looking
up the index of a handle is the inverse of the list.

* `Numbering.Drawn`: the numberings that drafts for a program end in.
* `Numbering.Complete`: every position stands in the numbering exactly once.
* `Program.number_eq`: the usual numbering always exists, and it lists imports, then internal
  functions, then exports, each in declaration order.
-/

namespace WasmForge

/-- In a list without repetitions, the index of an element is where it stands. -/
theorem idxOf?_eq_some_iff_of_nodup {α : Type} [DecidableEq α] {xs : List α} (nodup : xs.Nodup)
    {a : α} {i : Nat} : xs.idxOf? a = some i ↔ xs[i]? = some a := by
  rw [List.idxOf?_eq_some_iff, List.getElem?_eq_some_iff]
  constructor
  · rintro ⟨lt, here, -⟩
    exact ⟨lt, here⟩
  · rintro ⟨lt, here⟩
    refine ⟨lt, here, ?_⟩
    intro j before there
    have : j = i := (nodup.getElem_inj_iff).1 (there.trans here.symm)
    omega

/-- In a table without repetitions, every entry is found by its key. -/
theorem lookup_eq_some_iff_of_nodup {α β : Type} [DecidableEq α] {entries : List (α × β)}
    (nodup : (entries.map (·.1)).Nodup) {a : α} {b : β} :
    entries.lookup a = some b ↔ (a, b) ∈ entries := by
  rw [List.lookup_eq_some_iff]
  constructor
  · rintro ⟨before, after, rfl, -⟩
    exact List.mem_append_right before List.mem_cons_self
  · intro mem
    obtain ⟨before, after, rfl⟩ := List.append_of_mem mem
    refine ⟨before, after, rfl, ?_⟩
    intro e here
    rw [List.map_append, List.nodup_append] at nodup
    have apart := nodup.2.2 e.1 (List.mem_map_of_mem here) a (by simp)
    exact bne_iff_ne.2 apart.symm

namespace Numbering

namespace Draft

/-- The drafts for a program that giving out indices leads to. -/
inductive Drawn (p : Program) : Draft → Prop where
  /-- Nothing is numbered. -/
  | start : Drawn p (ofProgram p)
  /-- One more handle has an index. -/
  | assign {d e : Draft} {f : FuncRef} {i : Nat} (before : Drawn p d)
      (done : d.assign f = .ok (e, i)) : Drawn p e

theorem covers_iff {d : Draft} {f : FuncRef} :
    d.covers f = true ↔ f.program = d.program ∧ f.index < d.size := by
  simp [covers]

/-- A handle gets the next free index exactly when it is covered and has none yet. -/
theorem assign_eq_ok {d e : Draft} {f : FuncRef} {i : Nat} :
    d.assign f = .ok (e, i) ↔
      d.covers f = true ∧ f.index ∉ d.order ∧
        e = { d with order := d.order.push f.index } ∧ i = d.order.size := by
  unfold assign
  by_cases covered : d.covers f = true
  · rw [if_pos covered]
    cases found : d.order.idxOf? f.index with
    | some k =>
      have : f.index ∈ d.order := by
        rw [← Array.isSome_idxOf?, found]
        rfl
      simp [this]
    | none =>
      have : f.index ∉ d.order := Array.idxOf?_eq_none_iff.1 found
      simp only [Except.ok.injEq, Prod.mk.injEq, covered, this, not_false_eq_true, true_and]
      exact and_congr eq_comm eq_comm
  · simp [covered]

theorem finish_eq_ok {d : Draft} {n : Numbering} :
    d.finish = .ok n ↔ (∀ i < d.size, i ∈ d.order) ∧ n = ⟨d.program, d.order⟩ := by
  unfold finish
  cases found : (List.range d.size).find? (!d.order.contains ·) with
  | some i =>
    have missing : i ∉ d.order := by simpa using List.find?_some found
    have inRange : i < d.size := List.mem_range.1 (List.mem_of_find?_eq_some found)
    simp only [reduceCtorEq, false_iff, not_and]
    exact fun all => absurd (all i inRange) missing
  | none =>
    have all : ∀ i < d.size, i ∈ d.order := by simpa using found
    simp only [Except.ok.injEq]
    exact ⟨fun h => ⟨all, h.symm⟩, fun h => h.2.symm⟩

/-- What holds of every draft for a program: it numbers different positions of that program. -/
structure Sound (p : Program) (d : Draft) : Prop where
  /-- The draft is for the program. -/
  program : d.program = p.id
  /-- It is to number all declarations. -/
  size : d.size = p.size
  /-- No position has two indices. -/
  nodup : d.order.toList.Nodup
  /-- Only declarations have indices. -/
  bound : ∀ i ∈ d.order.toList, i < p.size

theorem Sound.assign {p : Program} {d e : Draft} {f : FuncRef} {i : Nat} (sound : d.Sound p)
    (done : d.assign f = .ok (e, i)) : e.Sound p := by
  obtain ⟨covered, fresh, rfl, -⟩ := assign_eq_ok.1 done
  refine ⟨sound.program, sound.size, ?_, ?_⟩
  · rw [Array.toList_push, List.nodup_append]
    refine ⟨sound.nodup, List.nodup_singleton _, ?_⟩
    intro j old k new same
    rw [List.mem_singleton] at new
    exact fresh (by rw [← new, ← same]; exact Array.mem_toList_iff.1 old)
  · intro j hj
    rw [Array.toList_push, List.mem_append, List.mem_singleton] at hj
    rcases hj with old | rfl
    · exact sound.bound j old
    · exact sound.size ▸ (covers_iff.1 covered).2

/-- A draft in which every declaration has an index lists the positions once each. -/
theorem Sound.perm_range {p : Program} {d : Draft} (sound : d.Sound p)
    (all : ∀ i < d.size, i ∈ d.order) : d.order.toList.Perm (List.range d.size) := by
  rw [List.perm_ext_iff_of_nodup sound.nodup List.nodup_range]
  intro i
  rw [List.mem_range]
  constructor
  · intro mem
    exact sound.size ▸ sound.bound i mem
  · intro lt
    exact Array.mem_toList_iff.2 (all i lt)

theorem Drawn.sound {p : Program} {d : Draft} (drawn : Drawn p d) : d.Sound p := by
  induction drawn with
  | start => exact ⟨rfl, rfl, List.nodup_nil, by simp [ofProgram]⟩
  | assign before done ih => exact ih.assign done

/-- Handles that are covered, have no index yet and are all different get the next indices. -/
theorem assignAll_eq_ok {d : Draft} {fs : List FuncRef} (covered : ∀ f ∈ fs, d.covers f = true)
    (nodup : (d.order.toList ++ fs.map (·.index)).Nodup) :
    d.assignAll fs = .ok { d with order := d.order ++ (fs.map (·.index)).toArray } := by
  induction fs generalizing d with
  | nil => simp [assignAll, pure, Except.pure]
  | cons f fs ih =>
    have fresh : f.index ∉ d.order := by
      intro old
      have := List.nodup_append.1 nodup
      exact this.2.2 f.index (Array.mem_toList_iff.2 old) f.index (by simp) rfl
    have first := assign_eq_ok.2 ⟨covered f List.mem_cons_self, fresh, rfl, rfl⟩
    have rest := ih (d := { d with order := d.order.push f.index })
      (fun g hg => covered g (List.mem_cons_of_mem f hg)) (by simpa using nodup)
    rw [assignAll, List.foldlM_cons, first]
    show assignAll { d with order := d.order.push f.index } fs = _
    rw [rest]
    simp

theorem Drawn.assignAll {p : Program} {d e : Draft} {fs : List FuncRef} (drawn : Drawn p d)
    (h : d.assignAll fs = .ok e) : Drawn p e := by
  induction fs generalizing d with
  | nil =>
    cases h
    exact drawn
  | cons f fs ih =>
    rw [Draft.assignAll, List.foldlM_cons] at h
    cases first : d.assign f with
    | error cause =>
      rw [first] at h
      cases h
    | ok next =>
      rw [first] at h
      exact ih (drawn.assign first) h

end Draft

/-- The numberings that drafts for a program end in. -/
def Drawn (p : Program) (n : Numbering) : Prop := ∃ d, Draft.Drawn p d ∧ d.finish = .ok n

/-- Every position stands in the numbering exactly once. -/
structure Complete (n : Numbering) : Prop where
  /-- No position has two indices. -/
  nodup : n.order.toList.Nodup
  /-- The positions are those below the number of functions. -/
  mem : ∀ i, i ∈ n.order.toList ↔ i < n.size

variable {n : Numbering}

theorem Draft.Sound.complete {p : Program} {d : Draft} (sound : d.Sound p)
    (finished : d.finish = .ok n) : n.Complete := by
  obtain ⟨all, rfl⟩ := Draft.finish_eq_ok.1 finished
  have perm := sound.perm_range all
  have count : d.order.size = d.size := by simpa using perm.length_eq
  refine ⟨sound.nodup, ?_⟩
  intro i
  show i ∈ d.order.toList ↔ i < d.order.size
  rw [perm.mem_iff, List.mem_range, count]

theorem Drawn.complete {p : Program} (drawn : n.Drawn p) : n.Complete := by
  obtain ⟨d, drawn, finished⟩ := drawn
  exact drawn.sound.complete finished

/-! ## Indices and handles -/

theorem length_refs (n : Numbering) : n.refs.length = n.size := by simp [refs, size]

theorem getElem?_refs (n : Numbering) (i : Nat) :
    n.refs[i]? = (n.order.toList[i]?).map fun k => ⟨n.program, k⟩ := by
  rw [refs, List.getElem?_map]

/-- The handle at the index of a handle is that handle. -/
theorem getElem?_refs_of_indexOf? {f : FuncRef} {i : Nat} (h : n.indexOf? f = some i) :
    n.refs[i]? = some f := by
  unfold indexOf? at h
  split at h
  · rename_i own
    rw [← Array.idxOf?_toList] at h
    obtain ⟨lt, here, -⟩ := List.idxOf?_eq_some_iff.1 h
    rw [getElem?_refs, List.getElem?_eq_getElem lt, here, ← own]
    rfl
  · cases h

theorem lt_size_of_indexOf? {f : FuncRef} {i : Nat} (h : n.indexOf? f = some i) : i < n.size := by
  rw [← n.length_refs]
  exact (List.getElem?_eq_some_iff.1 (getElem?_refs_of_indexOf? h)).1

/-- Looking up an index undoes looking up a handle. -/
theorem Complete.indexOf?_eq_some (complete : n.Complete) {f : FuncRef} {i : Nat} :
    n.indexOf? f = some i ↔ n.refs[i]? = some f := by
  refine ⟨getElem?_refs_of_indexOf?, ?_⟩
  intro h
  rw [getElem?_refs] at h
  obtain ⟨k, at_i, rfl⟩ := Option.map_eq_some_iff.1 h
  rw [indexOf?, if_pos rfl, ← Array.idxOf?_toList]
  exact (idxOf?_eq_some_iff_of_nodup complete.nodup).2 at_i

theorem Complete.nodup_refs (complete : n.Complete) : n.refs.Nodup := by
  refine complete.nodup.map ?_
  intro i j same
  exact congrArg FuncRef.index same

/-- The handles in a numbering are those of its program that are in range. -/
theorem Complete.mem_refs (complete : n.Complete) {f : FuncRef} :
    f ∈ n.refs ↔ f.program = n.program ∧ f.index < n.size := by
  rw [← complete.mem, refs, List.mem_map]
  constructor
  · rintro ⟨i, mem, rfl⟩
    exact ⟨rfl, mem⟩
  · rintro ⟨own, mem⟩
    exact ⟨f.index, mem, by rw [← own]⟩

theorem indexOf_eq_ok {f : FuncRef} {i : Nat} :
    n.indexOf f = .ok i ↔ n.indexOf? f = some i := by
  unfold indexOf
  split <;> simp_all

end Numbering

namespace Program

variable {p : Program}

/-! ## The usual numbering -/

theorem mem_refs {f : FuncRef} : f ∈ p.refs ↔ p.owns f = true := by
  rw [owns_iff, refs, List.mem_map]
  constructor
  · rintro ⟨i, mem, rfl⟩
    exact ⟨rfl, List.mem_range.1 mem⟩
  · rintro ⟨own, lt⟩
    exact ⟨f.index, List.mem_range.2 lt, by rw [ref, ← own]⟩

theorem mem_refsWhere {test : Declaration → Bool} {f : FuncRef} :
    f ∈ p.refsWhere test ↔ ∃ d, p.get? f = some d ∧ test d = true := by
  rw [refsWhere, List.mem_filter, mem_refs, owns]
  cases p.get? f <;> simp

/-- Handles of one kind stand in declaration order. -/
theorem pairwise_refsWhere (p : Program) (test : Declaration → Bool) :
    (p.refsWhere test).Pairwise (·.index < ·.index) := by
  refine List.Pairwise.filter _ ?_
  rw [refs, List.pairwise_map]
  exact List.pairwise_lt_range

/-- The handles of the usual numbering: imports, internal functions, exports. -/
def numbered (p : Program) : List FuncRef :=
  p.refsWhere (·.isImport) ++ p.refsWhere (·.linkage == .internal) ++ p.refsWhere (·.isExport)

theorem mem_numbered {f : FuncRef} : f ∈ p.numbered ↔ p.owns f = true := by
  rw [numbered, List.mem_append, List.mem_append, mem_refsWhere, mem_refsWhere, mem_refsWhere, owns]
  cases p.get? f with
  | none => simp
  | some d =>
    cases link : d.linkage <;>
      simp [Declaration.isImport, Declaration.isExport, Linkage.isImport, link]

theorem index_inj_of_owns {f g : FuncRef} (hf : p.owns f = true) (hg : p.owns g = true)
    (same : f.index = g.index) : f = g := by
  have programs := (owns_iff.1 hf).1.trans (owns_iff.1 hg).1.symm
  cases f
  cases g
  simp_all

theorem nodup_numbered (p : Program) : p.numbered.Nodup := by
  have strict : ∀ test, (p.refsWhere test).Nodup := by
    intro test
    refine (pairwise_refsWhere p test).imp ?_
    intro f g lt same
    exact absurd lt (by simp [same])
  rw [numbered, List.nodup_append, List.nodup_append]
  refine ⟨⟨strict _, strict _, ?_⟩, strict _, ?_⟩
  · intro f hf g hg same
    obtain ⟨d, known, imported⟩ := mem_refsWhere.1 hf
    obtain ⟨e, known', internal⟩ := mem_refsWhere.1 hg
    obtain rfl : d = e := by simpa [same, known'] using known.symm
    cases link : d.linkage <;> simp_all [Declaration.isImport, Linkage.isImport]
  · intro f hf g hg same
    obtain ⟨e, known', exported⟩ := mem_refsWhere.1 hg
    rw [List.mem_append, mem_refsWhere, mem_refsWhere] at hf
    rcases hf with ⟨d, known, kind⟩ | ⟨d, known, kind⟩ <;>
    · obtain rfl : d = e := by simpa [same, known'] using known.symm
      cases link : d.linkage <;>
        simp_all [Declaration.isImport, Declaration.isExport, Linkage.isImport]

/-- Every program has its usual numbering. -/
theorem number_eq (p : Program) :
    p.number = .ok ⟨p.id, (p.numbered.map (·.index)).toArray⟩ := by
  have covered : ∀ f ∈ p.numbered, (Numbering.Draft.ofProgram p).covers f = true := by
    intro f mem
    exact Numbering.Draft.covers_iff.2 (owns_iff.1 (mem_numbered.1 mem))
  have nodup : (p.numbered.map (·.index)).Nodup := by
    refine List.Nodup.map_on ?_ p.nodup_numbered
    intro f hf g hg same
    exact index_inj_of_owns (mem_numbered.1 hf) (mem_numbered.1 hg) same
  have assigned := Numbering.Draft.assignAll_eq_ok covered
    (by simpa [Numbering.Draft.ofProgram] using nodup)
  unfold number
  rw [← numbered, assigned]
  show Numbering.Draft.finish _ = _
  rw [Numbering.Draft.finish_eq_ok]
  refine ⟨?_, by simp [Numbering.Draft.ofProgram]⟩
  intro i lt
  have mem : p.ref i ∈ p.numbered := mem_numbered.2 (owns_iff.2 ⟨rfl, lt⟩)
  simp only [Numbering.Draft.ofProgram, Array.empty_append, List.mem_toArray, List.mem_map]
  exact ⟨p.ref i, mem, rfl⟩

theorem refs_of_number {n : Numbering} (h : p.number = .ok n) : n.refs = p.numbered := by
  rw [number_eq, Except.ok.injEq] at h
  subst h
  have own : ∀ f ∈ p.numbered, (⟨p.id, f.index⟩ : FuncRef) = f := by
    intro f mem
    rw [← (owns_iff.1 (mem_numbered.1 mem)).1]
  simp only [Numbering.refs, List.map_map]
  exact (List.map_congr_left own).trans (List.map_id _)

theorem drawn_of_number {n : Numbering} (h : p.number = .ok n) : n.Drawn p := by
  unfold number at h
  obtain ⟨d, assigned, finished⟩ := bind_eq_ok.1 h
  exact ⟨d, .assignAll .start assigned, finished⟩

end Program

/-! ## An example -/

/-- A numbering of `Program.sample` that is not its usual one: the exported function comes before
the internal one. -/
def Numbering.sample : Numbering := ⟨7, #[1, 0, 2]⟩

theorem Numbering.drawn_sample : Numbering.sample.Drawn Program.sample := by
  have row : (Draft.ofProgram Program.sample).assignAll [⟨7, 1⟩, ⟨7, 0⟩, ⟨7, 2⟩] =
      .ok ⟨7, 3, #[1, 0, 2]⟩ := by decide +kernel
  exact ⟨⟨7, 3, #[1, 0, 2]⟩, .assignAll .start row, by decide +kernel⟩

end WasmForge

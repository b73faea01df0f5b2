import Mathlib
import WasmForge.ModuleMap.Basic
import WasmForge.Proofs.Acceptance

/-!
# The order of the functions

The usual numbering groups the functions of a program by kind and keeps them in declaration order
within a kind.  So each kind has a block of indices, which starts where the block before it ends.

* `Program.ofKind`: the handles of one kind, in declaration order.
* `Program.getElem?_numbered`: where a function of a kind stands.
* `Program.number_groups`: the blocks of the usual numbering.
-/

namespace WasmForge

namespace Linkage

theorem isImport_eq (l : Linkage) : l.isImport = (l.entryKind == .imported) := by
  cases l <;> rfl

theorem beq_internal (l : Linkage) : (l == .internal) = (l.entryKind == .internal) := by
  cases l <;> rfl

theorem beq_exported (l : Linkage) : (l == .exported) = (l.entryKind == .exported) := by
  cases l <;> rfl

end Linkage

namespace Program

variable {p : Program} {kind : EntryKind} {f g : FuncRef}

/-- The kind of the function that a handle names. -/
def kindOf? (p : Program) (f : FuncRef) : Option EntryKind :=
  (p.get? f).map (·.linkage.entryKind)

/-- The handles of one kind, in declaration order. -/
def ofKind (p : Program) (kind : EntryKind) : List FuncRef :=
  p.refs.filter (p.kindOf? · == some kind)

/-- The number of functions of one kind. -/
def countOf (p : Program) (kind : EntryKind) : Nat :=
  p.decls.toList.countP (·.linkage.entryKind == kind)

/-- Where the block of a kind starts: imports come first, exports last. -/
def firstOf (p : Program) : EntryKind → Nat
  | .imported => 0
  | .internal => p.countOf .imported
  | .exported => p.countOf .imported + p.countOf .internal

theorem mem_ofKind : f ∈ p.ofKind kind ↔ p.kindOf? f = some kind := by
  rw [ofKind, List.mem_filter, mem_refs, beq_iff_eq, and_iff_right_iff_imp, owns, kindOf?]
  intro known
  cases found : p.get? f with
  | none => simp [found] at known
  | some d => rfl

theorem refsWhere_eq_ofKind {test : Declaration → Bool}
    (same : ∀ d, test d = (d.linkage.entryKind == kind)) : p.refsWhere test = p.ofKind kind := by
  refine List.filter_congr fun f _ => ?_
  rw [kindOf?]
  cases p.get? f with
  | none => rfl
  | some d => simpa using same d

theorem numbered_eq_ofKind (p : Program) :
    p.numbered = p.ofKind .imported ++ p.ofKind .internal ++ p.ofKind .exported := by
  have imports : p.refsWhere (·.isImport) = p.ofKind .imported :=
    refsWhere_eq_ofKind fun d => d.linkage.isImport_eq
  have internals : p.refsWhere (·.linkage == .internal) = p.ofKind .internal :=
    refsWhere_eq_ofKind fun d => d.linkage.beq_internal
  have exports : p.refsWhere (·.isExport) = p.ofKind .exported :=
    refsWhere_eq_ofKind fun d => d.linkage.beq_exported
  rw [numbered, imports, internals, exports]

theorem length_ofKind (p : Program) (kind : EntryKind) :
    (p.ofKind kind).length = p.countOf kind := by
  have own : ∀ f ∈ p.refsWhere (·.linkage.entryKind == kind), p.owns f = true :=
    fun f mem => mem_refs.1 (List.mem_of_mem_filter mem)
  have length := congrArg List.length (map_get?_of_owns own)
  rw [List.length_map, List.length_map, filterMap_refsWhere,
    ← List.countP_eq_length_filter] at length
  rw [← refsWhere_eq_ofKind fun d => rfl, length, countOf]

/-- Handles of one kind stand in declaration order. -/
theorem pairwise_ofKind (p : Program) (kind : EntryKind) :
    (p.ofKind kind).Pairwise (·.index < ·.index) := by
  rw [← refsWhere_eq_ofKind fun d => rfl]
  exact pairwise_refsWhere p _

/-- The functions of other kinds stand before and after the block of a kind. -/
theorem numbered_split (p : Program) (kind : EntryKind) :
    ∃ before after, p.numbered = before ++ p.ofKind kind ++ after ∧
      before.length = p.firstOf kind ∧ ∀ f ∈ before ++ after, p.kindOf? f ≠ some kind := by
  rw [numbered_eq_ofKind]
  cases kind with
  | imported =>
    refine ⟨[], p.ofKind .internal ++ p.ofKind .exported, by simp, rfl, ?_⟩
    intro f mem
    simp only [List.nil_append, List.mem_append, mem_ofKind] at mem
    rcases mem with h | h <;> simp [h]
  | internal =>
    refine ⟨p.ofKind .imported, p.ofKind .exported, rfl, length_ofKind .., ?_⟩
    intro f mem
    simp only [List.mem_append, mem_ofKind] at mem
    rcases mem with h | h <;> simp [h]
  | exported =>
    refine ⟨p.ofKind .imported ++ p.ofKind .internal, [], by simp, ?_, ?_⟩
    · rw [List.length_append, length_ofKind, length_ofKind, firstOf]
    · intro f mem
      simp only [List.append_nil, List.mem_append, mem_ofKind] at mem
      rcases mem with h | h <;> simp [h]

/-- A function stands in the block of its kind, at its place within the kind. -/
theorem getElem?_numbered (known : p.kindOf? f = some kind) {i : Nat} :
    p.numbered[i]? = some f ↔
      p.firstOf kind ≤ i ∧ (p.ofKind kind)[i - p.firstOf kind]? = some f := by
  obtain ⟨before, after, split, start, others⟩ := p.numbered_split kind
  rw [split, List.append_assoc, ← start]
  by_cases le : before.length ≤ i
  · rw [List.getElem?_append_right le, and_iff_right le]
    by_cases lt : i - before.length < (p.ofKind kind).length
    · rw [List.getElem?_append_left lt]
    · rw [List.getElem?_append_right (by omega),
        List.getElem?_eq_none (l := p.ofKind kind) (by omega)]
      refine iff_of_false ?_ (by simp)
      intro here
      exact others f (List.mem_append_right _ (List.mem_of_getElem? here)) known
  · rw [List.getElem?_append_left (by omega)]
    refine iff_of_false ?_ fun h => le h.1
    intro here
    exact others f (List.mem_append_left _ (List.mem_of_getElem? here)) known

theorem indexOf_usual {i : Nat} : p.usual.indexOf f = .ok i ↔ p.numbered[i]? = some f := by
  rw [Numbering.indexOf_eq_ok, (complete_usual p).indexOf?_eq_some, refs_usual]

/-- The indices of a kind are its block. -/
theorem bijOn_indexOf_usual (p : Program) (kind : EntryKind) :
    Set.BijOn p.usual.indexOf {f | p.kindOf? f = some kind}
      (Except.ok '' Set.Ico (p.firstOf kind) (p.firstOf kind + p.countOf kind)) := by
  have index : ∀ {f j}, (p.ofKind kind)[j]? = some f →
      p.usual.indexOf f = .ok (p.firstOf kind + j) := by
    intro f j here
    rw [indexOf_usual, getElem?_numbered (mem_ofKind.1 (List.mem_of_getElem? here)),
      Nat.add_sub_cancel_left]
    exact ⟨Nat.le_add_right .., here⟩
  refine ⟨?_, ?_, ?_⟩
  · intro f known
    obtain ⟨j, here⟩ := List.mem_iff_getElem?.1 (mem_ofKind.2 known)
    obtain ⟨lt, -⟩ := List.getElem?_eq_some_iff.1 here
    rw [length_ofKind] at lt
    exact ⟨_, ⟨Nat.le_add_right .., by omega⟩, (index here).symm⟩
  · intro f known g _ same
    obtain ⟨j, here⟩ := List.mem_iff_getElem?.1 (mem_ofKind.2 known)
    have hf := indexOf_usual.1 (index here)
    have hg := indexOf_usual.1 (same.symm.trans (index here))
    exact Option.some.inj (hf.symm.trans hg)
  · rintro _ ⟨i, ⟨le, lt⟩, rfl⟩
    have inside : i - p.firstOf kind < (p.ofKind kind).length := by
      rw [length_ofKind]
      omega
    have here := List.getElem?_eq_getElem inside
    refine ⟨_, mem_ofKind.1 (List.mem_of_getElem? here), ?_⟩
    rw [index here, Nat.add_sub_of_le le]

/-- Within a kind, indices ascend with the declarations. -/
theorem indexOf_usual_lt (hf : p.kindOf? f = some kind) (hg : p.kindOf? g = some kind) {i j : Nat}
    (atF : p.usual.indexOf f = .ok i) (atG : p.usual.indexOf g = .ok j) :
    f.index < g.index ↔ i < j := by
  obtain ⟨leF, hereF⟩ := (getElem?_numbered hf).1 (indexOf_usual.1 atF)
  obtain ⟨leG, hereG⟩ := (getElem?_numbered hg).1 (indexOf_usual.1 atG)
  have ascending := List.pairwise_iff_getElem.1 (p.pairwise_ofKind kind)
  obtain ⟨ltF, rfl⟩ := List.getElem?_eq_some_iff.1 hereF
  obtain ⟨ltG, rfl⟩ := List.getElem?_eq_some_iff.1 hereG
  rcases Nat.lt_trichotomy i j with before | rfl | after
  · exact iff_of_true (ascending _ _ ltF ltG (by omega)) before
  · simp
  · have := ascending _ _ ltG ltF (by omega)
    omega

end Program

/-- The numbering keeps the functions of a program grouped by kind. -/
structure Numbering.GroupsByKind (n : Numbering) (p : Program) : Prop where
  /-- Imports, internal functions and exports, each in declaration order. -/
  order : n.refs = p.ofKind .imported ++ p.ofKind .internal ++ p.ofKind .exported
  /-- The functions of a kind have exactly the indices of its block. -/
  block : ∀ kind, Set.BijOn n.indexOf {f | p.kindOf? f = some kind}
    (Except.ok '' Set.Ico (p.firstOf kind) (p.firstOf kind + p.countOf kind))
  /-- Within a kind, indices ascend with the declarations. -/
  ascending : ∀ kind f g, p.kindOf? f = some kind → p.kindOf? g = some kind →
    ∀ i j, n.indexOf f = .ok i → n.indexOf g = .ok j → (f.index < g.index ↔ i < j)

/-- Every program has its usual numbering, and it groups the functions by kind. -/
theorem Program.number_groups (p : Program) :
    ∃ n, p.number = .ok n ∧ n.GroupsByKind p := by
  refine ⟨p.usual, number_eq p, ?_, p.bijOn_indexOf_usual, ?_⟩
  · rw [refs_usual, numbered_eq_ofKind]
  · intro kind f g hf hg i j
    exact indexOf_usual_lt hf hg

end WasmForge

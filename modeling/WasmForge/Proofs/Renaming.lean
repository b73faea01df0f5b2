import Mathlib
import WasmForge.Proofs.Correspondence

/-!
# Modules do not depend on handles

Two programs that differ only in their handles, with the functions of each kind in the same order,
are emitted as the same bytes with the same map, or emission fails for both in the same way.

* `Program.Renames`: one program is another under other handles.
* `Program.Renames.recasts`: renaming cannot be seen in a module.
* `Program.Renames.ofProgram_eq`: renaming cannot be seen in a map.
* `Program.compileWithMap_renamed`: both programs are emitted alike.
-/

namespace WasmForge

/-! ## Renaming -/

variable {φ : FuncRef → FuncRef}

/-- The declaration with other handles in its body, and nothing else changed. -/
def Declaration.rename (φ : FuncRef → FuncRef) (d : Declaration) : Declaration :=
  { d with body := d.body.map (Stmt.rename φ) }

/-- The second program is the first one under other handles: every declaration has its like, with
the handles in its body renamed, other handles mean nothing to either program, and the functions of
each kind are declared in the same order. -/
structure Program.Renames (φ : FuncRef → FuncRef) (p q : Program) : Prop where
  /-- Different handles stay different. -/
  injective : Function.Injective φ
  /-- What a handle means, if anything. -/
  get? : ∀ f, q.get? (φ f) = (p.get? f).map (Declaration.rename φ)
  /-- There are no other declarations. -/
  onto : ∀ g, q.owns g = true → ∃ f, φ f = g
  /-- The order of functions of one kind. -/
  ordered : ∀ f g d e, p.get? f = some d → p.get? g = some e →
    d.linkage.entryKind = e.linkage.entryKind → f.index < g.index → (φ f).index < (φ g).index

theorem Declaration.unseen_rename (φ : FuncRef → FuncRef) : Unseen φ (Declaration.rename φ) :=
  ⟨fun _ _ => rfl, fun _ => rfl, fun _ => rfl, fun _ => rfl, fun _ => rfl, fun _ => rfl⟩

/-! ## Emission -/

namespace Program.Renames

variable {p q : Program} (renames : Renames φ p q)

include renames

/-- Renaming cannot be seen in a module. -/
theorem recasts : Recasts φ (Declaration.rename φ) p q :=
  ⟨Declaration.unseen_rename φ, renames.injective, renames.get?, renames.onto, renames.ordered⟩

/-- Renaming cannot be seen in a map. -/
theorem ofProgram_eq (memory : Option Limits) :
    ModuleMap.ofProgram q q.usual memory = ModuleMap.ofProgram p p.usual memory := by
  have size : q.usual.size = p.usual.size := by
    rw [← Numbering.length_refs, ← Numbering.length_refs, renames.recasts.refs_usual_eq,
      List.length_map]
  unfold ModuleMap.ofProgram
  rw [renames.recasts.refs_usual_eq, size, List.zip_map_right, List.filterMap_map]
  refine congrArg (fun entries => (⟨entries, memory⟩ : ModuleMap)) (List.filterMap_congr ?_)
  intro e _
  show (q.get? (φ e.2)).map _ = (p.get? e.2).map _
  rw [renames.get? e.2, Option.map_map]
  rfl

end Program.Renames

/-- A program under other handles, with the functions of each kind in the same order, is emitted
alike: both succeed with the same bytes and the same map, or both fail in the same way. -/
theorem Program.compileWithMap_renamed {p q : Program} (renames : Program.Renames φ p q)
    (o : EmitOptions) :
    (∃ bs map, p.compileWithMap o = .ok (bs, map) ∧ q.compileWithMap o = .ok (bs, map)) ∨
      ∃ e e', p.compileWithMap o = .error e ∧ q.compileWithMap o = .error e' ∧
        e.kind = e'.kind := by
  have alike : Alike Eq (p.compileWithMap o) (q.compileWithMap o) :=
    renames.recasts.alike_compileWithMap o fun bs =>
      congrArg (bs, ·) (renames.ofProgram_eq o.memory).symm
  generalize p.compileWithMap o = x, q.compileWithMap o = y at alike ⊢
  cases alike with
  | ok same =>
    subst same
    exact .inl ⟨_, _, rfl, rfl⟩
  | error same => exact .inr ⟨_, _, rfl, rfl, same⟩

/-- `Program.sample` with a second import, which comes last. -/
def Program.sampleWaiting : Program :=
  sample.add { name := "wait", params := [], result := .void, linkage := .imported "" }

/-- Other handles for the functions of `Program.sampleWaiting`, of a program with another identity
and in another order; handles of the two programs change places. -/
def FuncRef.moved (f : FuncRef) : FuncRef :=
  if f.program = 7 then
    ⟨9, if f.index = 0 then 3 else if f.index = 1 then 0 else if f.index = 3 then 1 else f.index⟩
  else if f.program = 9 then ⟨7, f.index⟩
  else f

/-- `Program.sampleWaiting` under other handles, with the imports first and the export last. -/
def Program.sampleMoved : Program :=
  ⟨9, #[1, 3, 2, 0].filterMap fun i =>
    (sampleWaiting.decls[i]?).map (Declaration.rename .moved)⟩

/-- The two imports are in the same order as before. -/
theorem Program.renames_sample : Program.Renames FuncRef.moved sampleWaiting sampleMoved where
  injective := by
    intro f g same
    obtain ⟨program, index⟩ := f
    obtain ⟨program', index'⟩ := g
    simp only [FuncRef.moved] at same
    split_ifs at same <;> simp only [FuncRef.mk.injEq] at same ⊢ <;> omega
  get? := by
    rintro ⟨program, index⟩
    by_cases own : program = 7
    · subst own
      by_cases lt : index < 4
      · interval_cases index <;> rfl
      · have outside : ∀ r : Program, r.decls.size = 4 → r.decls[index]? = none :=
          fun r size => Array.getElem?_eq_none (by omega)
        have moved : FuncRef.moved ⟨7, index⟩ = ⟨9, index⟩ := by
          simp only [FuncRef.moved, if_true, FuncRef.mk.injEq, true_and]
          split_ifs <;> omega
        rw [moved]
        show sampleMoved.decls[index]? = (sampleWaiting.decls[index]?).map _
        rw [outside sampleMoved rfl, outside sampleWaiting rfl, Option.map_none]
    · have foreign : sampleWaiting.get? ⟨program, index⟩ = none := if_neg own
      have moved : ¬(FuncRef.moved ⟨program, index⟩).program = 9 := by
        simp only [FuncRef.moved, own, if_false]
        split
        · show ¬7 = 9
          decide
        · assumption
      rw [foreign]
      exact if_neg moved
  onto := by
    rintro ⟨program, index⟩ own
    obtain ⟨here, lt⟩ := owns_iff.1 own
    obtain rfl : program = 9 := here
    have lt : index < 4 := lt
    refine ⟨⟨7, #[1, 3, 2, 0][index]⟩, ?_⟩
    interval_cases index <;> rfl
  ordered := by
    rintro ⟨program, index⟩ ⟨program', index'⟩ d e known known' kind before
    obtain ⟨here, at_f⟩ := get?_eq_some.1 known
    obtain ⟨here', at_g⟩ := get?_eq_some.1 known'
    obtain rfl : program = 7 := here
    obtain rfl : program' = 7 := here'
    have lt : index' < 4 := (Array.getElem?_eq_some_iff.1 at_g).1
    have before : index < index' := before
    interval_cases index' <;> interval_cases index <;> cases at_f <;> cases at_g <;> cases kind
    -- the two imports are of one kind
    show 0 < 1
    decide

theorem Program.compileWithMap_renamed_sample :
    ∃ bs map, sampleWaiting.compileWithMap ⟨none⟩ = .ok (bs, map) ∧
      sampleMoved.compileWithMap ⟨none⟩ = .ok (bs, map) := by
  have evaluated : (sampleWaiting.compileWithMap ⟨none⟩).toBool = true := by decide +kernel
  rcases compileWithMap_renamed renames_sample ⟨none⟩ with both | ⟨e, _, failed, -⟩
  · exact both
  · rw [failed] at evaluated
    cases evaluated

end WasmForge

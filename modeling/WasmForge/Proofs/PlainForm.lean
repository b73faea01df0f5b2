import Mathlib
import WasmForge.Proofs.Correspondence

/-!
# Modules hold no text for people

Names of parameters, names of internal functions and the host's code are for the loader script and
for messages.  Without them a program is in its plain form.  A program and its plain form are
emitted alike, so programs that differ only in such text are.

* `Declaration.plain`, `Program.plain`: plain forms.
* `Program.recasts_plain`: the difference cannot be seen in a module.
* `Program.SameCode`: programs that differ only in text for people.
* `Program.compile_of_sameCode`: such programs are emitted alike.
-/

namespace WasmForge

/-! ## The same handles -/

mutual

theorem Expr.relabel_self (e : Expr) : e.relabel (fun l => l) (fun f => f) = e := by
  cases e with
  | int v | float v | var l => rfl
  | arith op left right => rw [Expr.relabel, Expr.relabel_self left, Expr.relabel_self right]
  | call f args => rw [Expr.relabel, Expr.relabelAll_self args]

theorem Expr.relabelAll_self (es : List Expr) :
    Expr.relabelAll (fun l => l) (fun f => f) es = es := by
  cases es with
  | nil => rfl
  | cons e es => rw [Expr.relabelAll, Expr.relabel_self e, Expr.relabelAll_self es]

end

mutual

theorem Stmt.relabel_self (s : Stmt) : s.relabel (fun l => l) (fun f => f) = s := by
  cases s with
  | assign l e | ret e | expr e => rw [Stmt.relabel, Expr.relabel_self]
  | increment l => rfl
  | block body => rw [Stmt.relabel, Stmt.relabelAll_self body]

theorem Stmt.relabelAll_self (ss : List Stmt) :
    Stmt.relabelAll (fun l => l) (fun f => f) ss = ss := by
  cases ss with
  | nil => rfl
  | cons s ss => rw [Stmt.relabelAll, Stmt.relabel_self s, Stmt.relabelAll_self ss]

end

theorem Stmt.rename_self (s : Stmt) : s.rename (fun f => f) = s := s.relabel_self

/-! ## Plain forms -/

/-- The linkage without the host's code. -/
def Linkage.plain : Linkage → Linkage
  | imported _ => .imported ""
  | internal => .internal
  | exported => .exported

/-- The declaration without names of parameters, without the host's code, and without its name if
the host does not see it. -/
def Declaration.plain (d : Declaration) : Declaration :=
  { d with
    name := if d.linkage = .internal then "" else d.name
    params := d.params.map fun x => ⟨x.type, ""⟩
    linkage := d.linkage.plain }

/-- The program with its declarations in plain form. -/
def Program.plain (p : Program) : Program := ⟨p.id, p.decls.map Declaration.plain⟩

theorem Declaration.unseen_plain : Unseen (fun f => f) Declaration.plain where
  name _ seen := if_neg seen
  types d := by
    show (d.params.map _).map _ = _
    rw [List.map_map]
    rfl
  result _ := rfl
  kind d := by
    show d.linkage.plain.entryKind = _
    cases d.linkage <;> rfl
  locals _ := rfl
  body d := by
    show d.body = d.body.map _
    rw [funext Stmt.rename_self]
    exact Option.map_id'.symm

/-- A program and its plain form cannot be told apart in a module. -/
theorem Program.recasts_plain (p : Program) :
    Recasts (fun f => f) Declaration.plain p p.plain where
  unseen := Declaration.unseen_plain
  injective _ _ same := same
  get? f := by
    unfold Program.get?
    show (if f.program = p.id then (p.decls.map Declaration.plain)[f.index]? else none) = _
    split
    · exact Array.getElem?_map
    · rfl
  onto g _ := ⟨g, rfl⟩
  ordered _ _ _ _ _ _ _ before := before

/-! ## Programs with the same code -/

/-- The declarations agree in everything but names of parameters, the host's code and names that the
host does not see. -/
structure Declaration.SameCode (d e : Declaration) : Prop where
  /-- The kind of the function. -/
  kind : d.linkage.entryKind = e.linkage.entryKind
  /-- Names of imports and exports. -/
  name : d.linkage ≠ .internal → d.name = e.name
  /-- Types of parameters. -/
  types : d.params.map (·.type) = e.params.map (·.type)
  /-- The type of the result. -/
  result : d.result = e.result
  /-- The locals. -/
  locals : d.locals = e.locals
  /-- The body. -/
  body : d.body = e.body

/-- The programs have the same identity, and their declarations agree one by one. -/
structure Program.SameCode (p q : Program) : Prop where
  /-- The identity. -/
  id : p.id = q.id
  /-- The declarations. -/
  decls : List.Forall₂ Declaration.SameCode p.decls.toList q.decls.toList

/-- Declarations that agree have the same plain form. -/
theorem Declaration.SameCode.plain_eq {d e : Declaration} (same : d.SameCode e) :
    d.plain = e.plain := by
  obtain ⟨kind, name, types, result, locals, body⟩ := same
  have params : d.params.map (fun x => (⟨x.type, ""⟩ : Param)) =
      e.params.map (fun x => (⟨x.type, ""⟩ : Param)) := by
    have mapped := congrArg (List.map fun t => (⟨t, ""⟩ : Param)) types
    rwa [List.map_map, List.map_map] at mapped
  have linkage : d.linkage.plain = e.linkage.plain := by
    revert kind
    cases d.linkage <;> cases e.linkage <;> simp [Linkage.entryKind, Linkage.plain]
  have internal : d.linkage = .internal ↔ e.linkage = .internal := by
    rw [← beq_iff_eq, Linkage.beq_internal, kind, ← Linkage.beq_internal, beq_iff_eq]
  have shown : (if d.linkage = .internal then "" else d.name) =
      if e.linkage = .internal then "" else e.name := by
    by_cases hidden : d.linkage = .internal
    · rw [if_pos hidden, if_pos (internal.1 hidden)]
    · rw [if_neg hidden, if_neg fun h => hidden (internal.2 h), name hidden]
  rw [Declaration.plain, Declaration.plain, shown, params, result, linkage, locals, body]

theorem Program.SameCode.plain_eq {p q : Program} (same : p.SameCode q) : p.plain = q.plain := by
  have decls : p.decls.map Declaration.plain = q.decls.map Declaration.plain := by
    rw [← Array.toList_inj, Array.toList_map, Array.toList_map, ← List.forall₂_eq_eq_eq,
      List.forall₂_map_left_iff, List.forall₂_map_right_iff]
    exact same.decls.imp fun _ _ => Declaration.SameCode.plain_eq
  rw [Program.plain, Program.plain, same.id, decls]

/-- Programs that agree in everything but names of parameters, the host's code and names of internal
functions are emitted alike: both succeed with the same bytes, or both fail in the same way. -/
theorem Program.compile_of_sameCode {p q : Program} (same : p.SameCode q) (o : EmitOptions) :
    (∃ bs, p.compile o = .ok bs ∧ q.compile o = .ok bs) ∨
      ∃ e e', p.compile o = .error e ∧ q.compile o = .error e' ∧ e.kind = e'.kind := by
  have first := p.recasts_plain.alike_compile o
  have second := q.recasts_plain.alike_compile o
  rw [same.plain_eq] at first
  generalize p.compile o = x, q.compile o = y, q.plain.compile o = z at first second ⊢
  cases first with
  | ok here =>
    cases second with
    | ok there =>
      subst here there
      exact .inl ⟨_, rfl, rfl⟩
  | error here =>
    cases second with
    | error there => exact .inr ⟨_, _, rfl, rfl, here.trans there.symm⟩

/-- `Program.sample` with other names of parameters, other host code and another name of the
internal function, which is now that of the import. -/
def Program.sampleRetold : Program where
  id := 7
  decls := #[
    { name := "run", params := [⟨.int32, ""⟩, ⟨.float32, ""⟩], result := .int32,
      linkage := .exported, locals := [.float32, .int32], body := some sampleRun },
    { name := "log", params := [⟨.float32, "value"⟩], result := .void, linkage := .imported "" },
    { name := "log", params := [⟨.int32, "log"⟩], result := .int32, linkage := .internal,
      body := some sampleTwice }]

theorem Program.compile_of_sameCode_sample :
    ∃ bs, sample.compile ⟨some ⟨1, some 2⟩⟩ = .ok bs ∧
      sampleRetold.compile ⟨some ⟨1, some 2⟩⟩ = .ok bs := by
  have same : sample.SameCode sampleRetold := by
    refine ⟨rfl, .cons ?_ (.cons ?_ (.cons ?_ .nil))⟩
    · exact ⟨rfl, fun _ => rfl, rfl, rfl, rfl, rfl⟩
    · exact ⟨rfl, fun _ => rfl, rfl, rfl, rfl, rfl⟩
    · exact ⟨rfl, fun seen => absurd rfl seen, rfl, rfl, rfl, rfl⟩
  have evaluated : (sample.compile ⟨some ⟨1, some 2⟩⟩).toBool = true := by decide +kernel
  rcases compile_of_sameCode same ⟨some ⟨1, some 2⟩⟩ with both | ⟨e, _, failed, -⟩
  · exact both
  · rw [failed] at evaluated
    cases evaluated

end WasmForge

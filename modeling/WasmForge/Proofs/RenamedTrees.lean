import Mathlib
import WasmForge.Proofs.Lowering

/-!
# Lowering of renamed trees

A tree can be written with other locals and other functions.  When the new names mean in one
function what the old names mean in another, both trees are lowered alike: the instructions are the
same up to the names in them, and both succeed with the same type or both fail in the same way.

* `Alike`: two results that succeed alike or fail in the same way.
* `Expr.relabel`, `Stmt.relabel`: the tree with other names.
* `Scope.Matches`: the new names mean what the old names mean.
* `Scope.renamed_expr`, `Scope.renamed_stmt`: lowering of renamed trees.
-/

namespace WasmForge

/-! ## Results that are alike -/

/-- The ways in which emission can fail. -/
inductive ErrorKind where
  /-- The options. -/
  | configuration
  /-- The numbering of functions. -/
  | resolution
  /-- A body. -/
  | lowering
  /-- The finished module. -/
  | invalidModule
  deriving DecidableEq

/-- The kind of an error. -/
def EmitError.kind : EmitError → ErrorKind
  | configuration _ => .configuration
  | resolution _ => .resolution
  | lowering _ => .lowering
  | invalidModule => .invalidModule

/-- Both have a value, and the values are related, or both failed in the same way. -/
inductive Alike {α β : Type} (R : α → β → Prop) :
    Except EmitError α → Except EmitError β → Prop where
  /-- Both have a value. -/
  | ok {a : α} {b : β} (related : R a b) : Alike R (.ok a) (.ok b)
  /-- Both failed. -/
  | error {e e' : EmitError} (same : e.kind = e'.kind) : Alike R (.error e) (.error e')

namespace Alike

variable {α β γ δ : Type} {R : α → β → Prop} {S : γ → δ → Prop}

theorem of_eq {x y : Except EmitError α} (same : x = y) : Alike Eq x y := by
  subst same
  cases x with
  | ok a => exact .ok rfl
  | error e => exact .error rfl

theorem bind {x : Except EmitError α} {y : Except EmitError β} {f : α → Except EmitError γ}
    {g : β → Except EmitError δ} (first : Alike R x y)
    (rest : ∀ a b, R a b → Alike S (f a) (g b)) : Alike S (x >>= f) (y >>= g) := by
  cases first with
  | ok related => exact rest _ _ related
  | error same => exact .error same

theorem mono {R' : α → β → Prop} {x : Except EmitError α} {y : Except EmitError β}
    (alike : Alike R x y) (weaker : ∀ a b, R a b → R' a b) : Alike R' x y := by
  cases alike with
  | ok related => exact .ok (weaker _ _ related)
  | error same => exact .error same

theorem map {x : Except EmitError α} {y : Except EmitError β} {f : α → γ} {g : β → δ}
    (alike : Alike R x y) (values : ∀ a b, R a b → S (f a) (g b)) :
    Alike S (x.map f) (y.map g) := by
  cases alike with
  | ok related => exact .ok (values _ _ related)
  | error same => exact .error same

/-- A row of computations on a list, and one on its image. -/
theorem mapM {as : List α} {h : α → β} {k : γ → δ} {f : α → Except EmitError γ}
    {g : β → Except EmitError δ} (each : ∀ a ∈ as, Alike (fun c d => d = k c) (f a) (g (h a))) :
    Alike (fun cs ds => ds = cs.map k) (as.mapM f) ((as.map h).mapM g) := by
  induction as with
  | nil => exact .ok rfl
  | cons a as ih =>
    rw [List.forall_mem_cons] at each
    rw [List.map_cons, List.mapM_cons, List.mapM_cons]
    refine each.1.bind ?_
    rintro c _ rfl
    refine (ih each.2).bind ?_
    rintro cs _ rfl
    exact .ok rfl

theorem mapM_eq {as : List α} {h : α → β} {f : α → Except EmitError γ} {g : β → Except EmitError γ}
    (each : ∀ a ∈ as, Alike Eq (f a) (g (h a))) : Alike Eq (as.mapM f) ((as.map h).mapM g) := by
  have row : Alike (fun cs ds => ds = cs.map id) (as.mapM f) ((as.map h).mapM g) :=
    mapM fun a mem => (each a mem).mono fun _ _ same => same.symm
  exact row.mono fun _ _ same => (same.trans (List.map_id _)).symm

/-- A fold over a list, and one over its image. -/
theorem foldlM {ι κ : Type} {is : List ι} {h : ι → κ} {f : α → ι → Except EmitError α}
    {g : β → κ → Except EmitError β}
    (each : ∀ i ∈ is, ∀ a b, R a b → Alike R (f a i) (g b (h i))) {a : α} {b : β}
    (related : R a b) : Alike R (is.foldlM f a) ((is.map h).foldlM g b) := by
  induction is generalizing a b with
  | nil => exact .ok related
  | cons i is ih =>
    rw [List.forall_mem_cons] at each
    rw [List.map_cons, List.foldlM_cons, List.foldlM_cons]
    exact (each.1 a b related).bind fun _ _ next => ih each.2 next

end Alike

/-! ## Names in trees -/

mutual

/-- The locals in an expression, from left to right. -/
def Expr.locals : Expr → List Local
  | .int _ => []
  | .float _ => []
  | .var l => [l]
  | .arith _ left right => left.locals ++ right.locals
  | .call _ args => Expr.localsAll args

/-- The locals in expressions, from left to right. -/
def Expr.localsAll : List Expr → List Local
  | [] => []
  | e :: es => e.locals ++ Expr.localsAll es

end

mutual

/-- The locals in a statement, from left to right. -/
def Stmt.locals : Stmt → List Local
  | .assign l e => l :: e.locals
  | .increment l => [l]
  | .ret e => e.locals
  | .expr e => e.locals
  | .block body => Stmt.localsAll body

/-- The locals in statements, from left to right. -/
def Stmt.localsAll : List Stmt → List Local
  | [] => []
  | s :: ss => s.locals ++ Stmt.localsAll ss

end

mutual

/-- The expression with other locals and functions. -/
def Expr.relabel (ℓ : Local → Local) (φ : FuncRef → FuncRef) : Expr → Expr
  | .int v => .int v
  | .float v => .float v
  | .var l => .var (ℓ l)
  | .arith op left right => .arith op (left.relabel ℓ φ) (right.relabel ℓ φ)
  | .call f args => .call (φ f) (Expr.relabelAll ℓ φ args)

/-- The expressions with other locals and functions. -/
def Expr.relabelAll (ℓ : Local → Local) (φ : FuncRef → FuncRef) : List Expr → List Expr
  | [] => []
  | e :: es => e.relabel ℓ φ :: Expr.relabelAll ℓ φ es

end

mutual

/-- The statement with other locals and functions. -/
def Stmt.relabel (ℓ : Local → Local) (φ : FuncRef → FuncRef) : Stmt → Stmt
  | .assign l e => .assign (ℓ l) (e.relabel ℓ φ)
  | .increment l => .increment (ℓ l)
  | .ret e => .ret (e.relabel ℓ φ)
  | .expr e => .expr (e.relabel ℓ φ)
  | .block body => .block (Stmt.relabelAll ℓ φ body)

/-- The statements with other locals and functions. -/
def Stmt.relabelAll (ℓ : Local → Local) (φ : FuncRef → FuncRef) : List Stmt → List Stmt
  | [] => []
  | s :: ss => s.relabel ℓ φ :: Stmt.relabelAll ℓ φ ss

end

variable {ℓ : Local → Local} {φ : FuncRef → FuncRef} {used : Set Local}

theorem Expr.length_relabelAll (ℓ : Local → Local) (φ : FuncRef → FuncRef) (es : List Expr) :
    (Expr.relabelAll ℓ φ es).length = es.length := by
  induction es with
  | nil => rfl
  | cons e es ih => rw [Expr.relabelAll, List.length_cons, ih, List.length_cons]

/-! ## Emissions -/

/-- The instructions of the second emission are those of the first with other names, the outcomes
are alike, and the locals that are named in the first are among those in `used`. -/
structure Emission.Renamed {α β : Type} (ℓ : Local → Local) (φ : FuncRef → FuncRef)
    (used : Set Local) (R : α → β → Prop) (x : Emission α) (y : Emission β) : Prop where
  /-- The instructions. -/
  code : y.code = x.code.map (Instr.relabel ℓ φ)
  /-- The outcomes. -/
  outcome : Alike R x.outcome y.outcome
  /-- The locals. -/
  locals : ∀ i ∈ x.code, ∀ l ∈ i.local?, l ∈ used

namespace Emission.Renamed

variable {α β γ δ : Type} {R : α → β → Prop} {S : γ → δ → Prop}

theorem pure {a : α} {b : β} (related : R a b) :
    Renamed ℓ φ used R (Pure.pure a : Emission α) (Pure.pure b : Emission β) :=
  ⟨rfl, .ok related, nofun⟩

theorem fail {e e' : LoweringError} :
    Renamed ℓ φ used R (Emission.fail e : Emission α) (Emission.fail e' : Emission β) :=
  ⟨rfl, .error rfl, nofun⟩

theorem emit (o : Op Local FuncRef) (within : ∀ l ∈ o.local?, l ∈ used) :
    Renamed ℓ φ used Eq (Emission.emit o) (Emission.emit (o.relabel ℓ φ)) := by
  refine ⟨rfl, .ok rfl, ?_⟩
  intro i mem
  cases List.mem_singleton.1 mem
  exact within

/-- An instruction that names no local. -/
theorem emitFree (o : Op Local FuncRef) (free : o.local? = none) :
    Renamed ℓ φ used Eq (Emission.emit o) (Emission.emit (o.relabel ℓ φ)) :=
  emit o (by simp [free])

theorem lift {x : Except EmitError α} {y : Except EmitError β} (alike : Alike R x y) :
    Renamed ℓ φ used R (Emission.lift x) (Emission.lift y) :=
  ⟨rfl, alike, nofun⟩

theorem ite {c : Prop} [Decidable c] {x x' : Emission α} {y y' : Emission β}
    (yes : Renamed ℓ φ used R x y) (no : Renamed ℓ φ used R x' y') :
    Renamed ℓ φ used R (if c then x else x') (if c then y else y') := by
  split
  · exact yes
  · exact no

theorem bind {x : Emission α} {y : Emission β} {f : α → Emission γ} {g : β → Emission δ}
    (first : Renamed ℓ φ used R x y) (rest : ∀ a b, R a b → Renamed ℓ φ used S (f a) (g b)) :
    Renamed ℓ φ used S (x >>= f) (y >>= g) := by
  obtain ⟨xs, x⟩ := x
  obtain ⟨ys, y⟩ := y
  obtain ⟨code, outcome, locals⟩ := first
  dsimp only at code outcome locals
  subst code
  cases outcome with
  | ok related =>
    have next := rest _ _ related
    refine ⟨?_, next.outcome, ?_⟩
    · show _ ++ _ = List.map _ (_ ++ _)
      rw [List.map_append, next.code]
    · exact List.forall_mem_append.2 ⟨locals, next.locals⟩
  | error same => exact ⟨rfl, .error same, locals⟩

end Emission.Renamed

/-! ## Lowering -/

namespace Scope

/-- In the second function, the new names mean what the old names mean in the first: a local in
`used` has the same type, a callee takes and gives values of the same types, and the functions
themselves have results of the same type. -/
structure Matches (ℓ : Local → Local) (φ : FuncRef → FuncRef) (used : Set Local) (s s' : Scope) :
    Prop where
  /-- The result. -/
  result : s'.decl.result = s.decl.result
  /-- The locals. -/
  locals : ∀ l ∈ used, Alike Eq (s.localType l) (s'.localType (ℓ l))
  /-- The callees. -/
  callees : ∀ g, Alike
    (fun d e => e.params.map (·.type) = d.params.map (·.type) ∧ e.result = d.result)
    (s.callee g) (s'.callee (φ g))

variable {s s' : Scope}

theorem renamed_arith (op : Arith) (t : ValueType) :
    Emission.Renamed ℓ φ used Eq (s.arith op t) (s'.arith op t) := by
  cases t with
  | void => exact .fail
  | int32 => exact .emitFree (.i32Arith op) rfl
  | float32 => exact .emitFree (.f32Arith op) rfl

variable (matching : Matches ℓ φ used s s')

include matching

/-- Looking up a local, with its name in use. -/
theorem renamed_localType {l : Local} (mem : l ∈ used) :
    Emission.Renamed ℓ φ used Eq (Emission.lift (s.localType l))
      (Emission.lift (s'.localType (ℓ l))) :=
  .lift (matching.locals l mem)

set_option linter.unusedSectionVars false in
mutual

/-- A renamed expression is lowered alike. -/
theorem renamed_expr (e : Expr) (within : ∀ l ∈ e.locals, l ∈ used) :
    Emission.Renamed ℓ φ used Eq (s.expr e) (s'.expr (e.relabel ℓ φ)) := by
  cases e with
  | int v =>
    rw [Expr.relabel, expr, expr]
    exact .bind (.emitFree (.i32Const v) rfl) fun _ _ _ => .pure rfl
  | float v =>
    rw [Expr.relabel, expr, expr]
    exact .bind (.emitFree (.f32Const v) rfl) fun _ _ _ => .pure rfl
  | var l =>
    have mem : l ∈ used := within l (by simp [Expr.locals])
    rw [Expr.relabel, expr, expr]
    refine .bind (renamed_localType matching mem) ?_
    rintro t _ rfl
    exact .bind (.emit (.localGet l) (by simpa [Op.local?] using mem)) fun _ _ _ => .pure rfl
  | arith op left right =>
    rw [Expr.locals, List.forall_mem_append] at within
    rw [Expr.relabel, expr, expr]
    refine .bind (renamed_expr left within.1) ?_
    rintro lt _ rfl
    refine .bind (renamed_expr right within.2) ?_
    rintro rt _ rfl
    exact .ite (.bind (renamed_arith op lt) fun _ _ _ => .pure rfl) .fail
  | call g args =>
    rw [Expr.locals] at within
    rw [Expr.relabel, expr, expr]
    refine .bind (.lift (matching.callees g)) ?_
    rintro d d' ⟨types, result⟩
    have count : d'.params.length = d.params.length := by simpa using congrArg List.length types
    rw [Expr.length_relabelAll, count, result]
    refine .ite ?_ .fail
    refine .bind (renamed_arguments d.name d'.name types args within) fun _ _ _ => ?_
    exact .bind (.emitFree (.call g) rfl) fun _ _ _ => .pure rfl

theorem renamed_arguments (callee callee' : String) {params params' : List Param}
    (types : params'.map (·.type) = params.map (·.type)) (args : List Expr)
    (within : ∀ l ∈ Expr.localsAll args, l ∈ used) :
    Emission.Renamed ℓ φ used Eq (s.arguments callee params args)
      (s'.arguments callee' params' (Expr.relabelAll ℓ φ args)) := by
  cases args with
  | nil =>
    simp only [Expr.relabelAll, arguments]
    exact .pure rfl
  | cons e args =>
    cases params with
    | nil =>
      obtain rfl : params' = [] := List.map_eq_nil_iff.1 types
      simp only [arguments]
      exact .pure rfl
    | cons x params =>
      obtain ⟨x', params', rfl, type, types⟩ := List.map_eq_cons_iff.1 types
      rw [Expr.localsAll, List.forall_mem_append] at within
      rw [Expr.relabelAll, arguments, arguments]
      refine .bind (renamed_expr e within.1) ?_
      rintro t _ rfl
      rw [type]
      exact .ite (renamed_arguments callee callee' types args within.2) .fail

end

theorem renamed_increment {l : Local} (mem : l ∈ used) :
    Emission.Renamed ℓ φ used Eq (s.increment l) (s'.increment (ℓ l)) := by
  have named : ∀ m ∈ some l, m ∈ used := by simpa using mem
  refine .bind (renamed_localType matching mem) ?_
  rintro t _ rfl
  refine .bind (.emit (.localGet l) named) fun _ _ _ => ?_
  cases t with
  | void => exact .bind (R := Eq) .fail fun _ _ _ => .emit (.localSet l) named
  | int32 =>
    exact .bind (.emitFree (.i32Const 1) rfl) fun _ _ _ => .bind (.emitFree (.i32Arith .add) rfl)
      fun _ _ _ => .emit (.localSet l) named
  | float32 =>
    exact .bind (.emitFree (.f32Const .one) rfl) fun _ _ _ =>
      .bind (.emitFree (.f32Arith .add) rfl) fun _ _ _ => .emit (.localSet l) named

set_option linter.unusedSectionVars false in
mutual

/-- A renamed statement is lowered alike. -/
theorem renamed_stmt (c : Stmt) (within : ∀ l ∈ c.locals, l ∈ used) :
    Emission.Renamed ℓ φ used Eq (s.stmt c) (s'.stmt (c.relabel ℓ φ)) := by
  cases c with
  | assign l e =>
    rw [Stmt.locals, List.forall_mem_cons] at within
    rw [Stmt.relabel, stmt, stmt, assign, assign]
    refine .bind (renamed_localType matching within.1) ?_
    rintro target _ rfl
    refine .bind (renamed_expr matching e within.2) ?_
    rintro t _ rfl
    exact .ite (.emit (.localSet l) (by simpa [Op.local?] using within.1)) .fail
  | increment l =>
    rw [Stmt.relabel, stmt, stmt]
    exact renamed_increment matching (within l (by simp [Stmt.locals]))
  | ret e =>
    rw [Stmt.locals] at within
    rw [Stmt.relabel, stmt, stmt, ret, ret, matching.result]
    refine .bind (renamed_expr matching e within) ?_
    rintro t _ rfl
    exact .ite (.emitFree .ret rfl) .fail
  | expr e =>
    rw [Stmt.locals] at within
    rw [Stmt.relabel, stmt, stmt, discard, discard]
    refine .bind (renamed_expr matching e within) ?_
    rintro t _ rfl
    exact .ite (.pure rfl) (.emitFree .drop rfl)
  | block body =>
    rw [Stmt.locals] at within
    rw [Stmt.relabel, stmt, stmt]
    exact renamed_stmts body within

theorem renamed_stmts (cs : List Stmt) (within : ∀ l ∈ Stmt.localsAll cs, l ∈ used) :
    Emission.Renamed ℓ φ used Eq (s.stmts cs) (s'.stmts (Stmt.relabelAll ℓ φ cs)) := by
  cases cs with
  | nil =>
    rw [Stmt.relabelAll, stmts, stmts]
    exact .pure rfl
  | cons c cs =>
    rw [Stmt.localsAll, List.forall_mem_append] at within
    rw [Stmt.relabelAll, stmts, stmts]
    exact .bind (renamed_stmt c within.1) fun _ _ _ => renamed_stmts cs within.2

end

end Scope

/-! ## Bodies -/

/-- The second layout has the groups of the first and gives the new names of locals the slots that
the first gives the old names. -/
structure SlotLayout.Renamed (ℓ : Local → Local) (named : Set Local) (layout layout' : SlotLayout) :
    Prop where
  /-- The groups. -/
  groups : layout'.localGroups = layout.localGroups
  /-- The slots. -/
  slots : ∀ l ∈ named, layout'.slotOf? (ℓ l).place = layout.slotOf? l.place

namespace Assembler

variable {a a' : Assembler} {n n' : Numbering}

/-- The locals that the body names. -/
def named (a : Assembler) : Set Local := {l | ∃ i ∈ a.code, l ∈ i.local?}

/-- Linking puts the same numbers in place of old and new names if they have the same slots and the
same indices. -/
theorem alike_rename {layout layout' : SlotLayout} {i : SymbolicInstr}
    (slots : ∀ l ∈ i.local?, layout'.slotOf? (ℓ l).place = layout.slotOf? l.place)
    (indices : ∀ f, n'.indexOf? (φ f) = n.indexOf? f) :
    Alike Eq (i.rename (slot layout) (index n))
      ((i.relabel ℓ φ).rename (slot layout') (index n')) := by
  have alike_slot : ∀ l ∈ i.local?, Alike Eq (slot layout l) (slot layout' (ℓ l)) := by
    intro l named
    rw [slot, slot, slots l named]
    cases layout.slotOf? l.place with
    | some k => exact .ok rfl
    | none => exact .error rfl
  have alike_index : ∀ f, Alike Eq (index n f) (index n' (φ f)) := by
    intro f
    rw [index, index, Numbering.indexOf, Numbering.indexOf, indices f]
    cases n.indexOf? f with
    | some k => exact .ok rfl
    | none => exact .error rfl
  have put : ∀ {x y : Except EmitError Nat} (make : Nat → Op Nat Nat), Alike Eq x y →
      Alike Eq ((x >>= fun k => pure (make k)) >>= fun o => pure (Instr.op o))
        ((y >>= fun k => pure (make k)) >>= fun o => pure (Instr.op o)) := by
    intro x y make alike
    refine .bind (R := Eq) (alike.bind ?_) ?_
    · rintro k _ rfl
      exact .ok rfl
    · rintro o _ rfl
      exact .ok rfl
  cases i with
  | op o =>
    cases o with
    | localGet l => exact put .localGet (alike_slot l rfl)
    | localSet l => exact put .localSet (alike_slot l rfl)
    | call f => exact put .call (alike_index f)
    | _ => exact .of_eq rfl
  | _ => exact .of_eq rfl

theorem alike_finish (code : a'.code = a.code.map (Instr.relabel ℓ φ)) (closed : a.depth = 0)
    (closed' : a'.depth = 0) (layouts : SlotLayout.Renamed ℓ a.named a.layout a'.layout)
    (indices : ∀ f, n'.indexOf? (φ f) = n.indexOf? f) :
    Alike Eq (a.finish n) (a'.finish n') := by
  have linked : Alike Eq (a.link n) (a'.link n') := by
    unfold link
    rw [code]
    refine (Alike.mapM_eq fun i mem => ?_).bind ?_
    · exact alike_rename (fun l named => layouts.slots l ⟨i, mem, named⟩) indices
    · rintro body _ rfl
      exact .ok (congrArg (Code.mk · _) layouts.groups.symm)
  rw [finish, finish, if_pos closed, if_pos closed']
  refine linked.map ?_
  rintro c _ rfl
  rfl

end Assembler

namespace Program

variable {p p' : Program} {f f' : FuncRef} {d d' : Declaration} {n n' : Numbering}

theorem start_of_import (known : p.get? f = some d) (imported : d.isImport = true) :
    Assembler.start p f = .error (.lowering (.importHasNoBody d.name)) := by
  simp [Assembler.start, Scope.enter, known, imported, Except.map]

/-- Renamed bodies have the same bytes if old and new names mean the same and have the same slots
and the same indices. -/
theorem alike_lower (known : p.get? f = some d) (known' : p'.get? f' = some d')
    (imports : d'.isImport = d.isImport) (bodies : d'.body = d.body.map (Stmt.relabel ℓ φ))
    (matching : Scope.Matches ℓ φ used ⟨p, f, d⟩ ⟨p', f', d'⟩)
    (within : ∀ body, d.body = some body → ∀ l ∈ body.locals, l ∈ used)
    (layouts : ∀ code, Assembler.named ⟨⟨p, f, d⟩, code, 0⟩ ⊆ used →
      SlotLayout.Renamed ℓ (Assembler.named ⟨⟨p, f, d⟩, code, 0⟩)
        (Assembler.layout ⟨⟨p, f, d⟩, code, 0⟩)
        (Assembler.layout ⟨⟨p', f', d'⟩, code.map (Instr.relabel ℓ φ), 0⟩))
    (indices : ∀ g, n'.indexOf? (φ g) = n.indexOf? g) :
    Alike Eq (p.lower f d n) (p'.lower f' d' n') := by
  unfold lower
  rw [bodies]
  cases has : d.body with
  | none => exact .error rfl
  | some body =>
    by_cases imported : d.isImport = true
    · rw [start_of_import known imported, start_of_import known' (imports.trans imported)]
      exact .error rfl
    · have defined : d.isImport = false := by simpa using imported
      have renamed := Scope.renamed_stmt matching body (within body has)
      have slots := layouts _ fun l ⟨i, mem, named⟩ => renamed.locals i mem l named
      rw [start_of_defined known defined, start_of_defined known' (imports.trans defined)]
      show Alike Eq (((⟨p, f, d⟩ : Scope).stmt body).outcome >>= fun _ =>
          ((⟨p, f, d⟩ : Scope).assembled body).finish n)
        (((⟨p', f', d'⟩ : Scope).stmt (body.relabel ℓ φ)).outcome >>= fun _ =>
          ((⟨p', f', d'⟩ : Scope).assembled (body.relabel ℓ φ)).finish n')
      refine renamed.outcome.bind fun _ _ _ => ?_
      rw [← renamed.code] at slots
      exact Assembler.alike_finish renamed.code rfl rfl slots indices

end Program

end WasmForge

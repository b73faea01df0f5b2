import Mathlib
import WasmForge.Proofs.Drafting
import WasmForge.Proofs.SlotTables

/-!
# Errors that never arise

Some checks of an assembler and of a module draft guard against states that their other checks rule
out: a local without a slot, an increment of a local that holds no value, a numbered handle that the
program does not know, an index beyond the bodies of the draft.  None of them ever fails.

* `Assembler.Faultless`, `ModuleDraft.Faultless`: the guards hold in this state.
* `Shelf`, `ModuleDraft.shelf_addBody`: a draft that keeps a place for each body, and its steps.
* `ModuleDraft.Accepts.perm_refs`: a numbering that a draft accepts has exactly the handles of its
  program, also if it was drawn up for an earlier state or for a copy that went another way.
* `Program.guards_hold`: the guards hold in every state that can be reached.
-/

namespace WasmForge

/-! ## Failures -/

section Failures

variable {ε ε' α β : Type}

theorem bind_eq_error {x : Except ε α} {f : α → Except ε β} {e : ε} :
    x >>= f = .error e ↔ x = .error e ∨ ∃ a, x = .ok a ∧ f a = .error e := by
  cases x <;> simp [bind, Except.bind]

theorem map_eq_error {x : Except ε α} {f : α → β} {e : ε} :
    x.map f = .error e ↔ x = .error e := by
  cases x <;> simp [Except.map]

theorem mapError_eq_error {x : Except ε α} {f : ε → ε'} {e : ε'} :
    x.mapError f = .error e ↔ ∃ cause, x = .error cause ∧ f cause = e := by
  cases x <;> simp [Except.mapError]

/-- A row of computations fails as its first failure does. -/
theorem mapM_eq_error {f : α → Except ε β} {xs : List α} {e : ε} :
    xs.mapM f = .error e ↔ ∃ before x after, xs = before ++ x :: after ∧
      (∀ y ∈ before, ∃ b, f y = .ok b) ∧ f x = .error e := by
  induction xs with
  | nil =>
    refine iff_of_false nofun ?_
    rintro ⟨before, x, after, split, -, -⟩
    cases before <;> cases split
  | cons x xs ih =>
    rw [List.mapM_cons, bind_eq_error]
    constructor
    · rintro (here | ⟨b, at_x, failed⟩)
      · exact ⟨[], x, xs, rfl, nofun, here⟩
      · rcases bind_eq_error.1 failed with there | ⟨bs, -, ⟨⟩⟩
        obtain ⟨before, y, after, rfl, fine, at_y⟩ := ih.1 there
        refine ⟨x :: before, y, after, rfl, ?_, at_y⟩
        exact List.forall_mem_cons.2 ⟨⟨b, at_x⟩, fine⟩
    · rintro ⟨before, y, after, split, fine, at_y⟩
      cases before with
      | nil =>
        cases split
        exact .inl at_y
      | cons z before =>
        cases split
        obtain ⟨⟨b, at_z⟩, fine⟩ := List.forall_mem_cons.1 fine
        exact .inr ⟨b, at_z, bind_eq_error.2 (.inl (ih.2 ⟨before, y, after, rfl, fine, at_y⟩))⟩

/-- A row of computations that fails does so at one of them. -/
theorem exists_of_mapM_eq_error {f : α → Except ε β} {xs : List α} {e : ε}
    (failed : xs.mapM f = .error e) : ∃ x ∈ xs, f x = .error e := by
  obtain ⟨before, x, after, rfl, -, at_x⟩ := mapM_eq_error.1 failed
  exact ⟨x, List.mem_append_right _ List.mem_cons_self, at_x⟩

end Failures

/-- Is the error one of a guard: a local without a slot, or an increment of a local that holds no
value? -/
def EmitError.isGuard : EmitError → Bool
  | .lowering (.noSlot _) => true
  | .lowering (.voidIncrement _) => true
  | _ => false

/-! ## Lowering -/

/-- An emission that does not fail at a guard. -/
def Emission.Unguarded {α : Type} (x : Emission α) : Prop :=
  ∀ e, x.outcome = .error e → e.isGuard = false

namespace Emission

variable {α β : Type}

theorem Unguarded.bind {x : Emission α} {f : α → Emission β} (first : x.Unguarded)
    (rest : ∀ a, x.outcome = .ok a → (f a).Unguarded) : (x >>= f).Unguarded := by
  intro e failed
  cases outcome : x.outcome with
  | ok a =>
    rw [bind_of_ok outcome] at failed
    exact rest a outcome e failed
  | error e' =>
    rw [bind_of_error outcome] at failed
    cases failed
    exact first e outcome

theorem unguarded_pure (a : α) : (pure a : Emission α).Unguarded := nofun

theorem unguarded_emit (o : Op Local FuncRef) : (emit o).Unguarded := nofun

theorem unguarded_fail {e : LoweringError} (other : (EmitError.lowering e).isGuard = false) :
    (fail e : Emission α).Unguarded := by
  rintro _ ⟨⟩
  exact other

theorem Unguarded.ite {c : Prop} [Decidable c] {x y : Emission α} (yes : c → x.Unguarded)
    (no : ¬c → y.Unguarded) : (if c then x else y).Unguarded := by
  split
  · rename_i holds
    exact yes holds
  · rename_i fails
    exact no fails

end Emission

namespace Scope

open Emission

variable {s : Scope}

theorem unguarded_localType (l : Local) : (lift (s.localType l)).Unguarded := by
  intro e failed
  rw [outcome_lift, localType] at failed
  split at failed
  · split at failed
    · cases failed
    · cases failed
      rfl
  · cases failed
    rfl

theorem unguarded_callee (f : FuncRef) : (lift (s.callee f)).Unguarded := by
  intro e failed
  rw [outcome_lift, callee] at failed
  split at failed
  · cases failed
  · cases failed
    rfl

theorem unguarded_arith (op : Arith) (t : ValueType) : (s.arith op t).Unguarded := by
  cases t with
  | void => exact unguarded_fail rfl
  | int32 | float32 => exact unguarded_emit _

mutual

theorem unguarded_expr (e : Expr) : (s.expr e).Unguarded := by
  cases e with
  | int v | float v =>
    rw [expr]
    exact (unguarded_emit _).bind fun _ _ => unguarded_pure _
  | var l =>
    rw [expr]
    exact (unguarded_localType l).bind fun _ _ =>
      (unguarded_emit _).bind fun _ _ => unguarded_pure _
  | arith op left right =>
    rw [expr]
    refine (unguarded_expr left).bind fun lt _ => (unguarded_expr right).bind fun rt _ => ?_
    refine .ite (fun _ => ?_) fun _ => unguarded_fail rfl
    exact (unguarded_arith op lt).bind fun _ _ => unguarded_pure _
  | call f args =>
    rw [expr]
    refine (unguarded_callee f).bind fun d _ => .ite (fun _ => ?_) fun _ => unguarded_fail rfl
    exact (unguarded_arguments d.name d.params args).bind fun _ _ =>
      (unguarded_emit _).bind fun _ _ => unguarded_pure _

theorem unguarded_arguments (callee : String) (params : List Param) (args : List Expr) :
    (s.arguments callee params args).Unguarded := by
  cases args with
  | nil => cases params <;> exact unguarded_pure _
  | cons e args =>
    cases params with
    | nil => exact unguarded_pure _
    | cons p params =>
      rw [arguments]
      exact (unguarded_expr e).bind fun t _ =>
        .ite (fun _ => unguarded_arguments callee params args) fun _ => unguarded_fail rfl

end

theorem unguarded_assign (l : Local) (e : Expr) : (s.assign l e).Unguarded :=
  (unguarded_localType l).bind fun _ _ => (unguarded_expr e).bind fun _ _ =>
    .ite (fun _ => unguarded_emit _) fun _ => unguarded_fail rfl

/-- Every local that a function declares holds a value, so it can be incremented. -/
theorem unguarded_increment (tidy : s.decl.Tidy) (l : Local) : (s.increment l).Unguarded := by
  refine (unguarded_localType l).bind fun t typed => (unguarded_emit _).bind fun _ _ => ?_
  have storable : t.isStorable = true := tidy.storable _ t (declared_of_localType typed).2
  cases t with
  | void => cases storable
  | int32 | float32 =>
    exact (unguarded_emit _).bind fun _ _ => (unguarded_emit _).bind fun _ _ => unguarded_emit _

theorem unguarded_ret (e : Expr) : (s.ret e).Unguarded :=
  (unguarded_expr e).bind fun _ _ => .ite (fun _ => unguarded_emit _) fun _ => unguarded_fail rfl

theorem unguarded_discard (e : Expr) : (s.discard e).Unguarded :=
  (unguarded_expr e).bind fun _ _ => .ite (fun _ => unguarded_pure _) fun _ => unguarded_emit _

mutual

theorem unguarded_stmt (tidy : s.decl.Tidy) (c : Stmt) : (s.stmt c).Unguarded := by
  cases c with
  | assign l e => exact unguarded_assign l e
  | increment l => exact unguarded_increment tidy l
  | ret e => exact unguarded_ret e
  | expr e => exact unguarded_discard e
  | block body => exact unguarded_stmts tidy body

theorem unguarded_stmts (tidy : s.decl.Tidy) (cs : List Stmt) : (s.stmts cs).Unguarded := by
  cases cs with
  | nil => exact unguarded_pure _
  | cons c cs =>
    rw [stmts]
    exact (unguarded_stmt tidy c).bind fun _ _ => unguarded_stmts tidy cs

end

end Scope

/-! ## Linking -/

/-- Renaming fails at the local or at the function of an instruction. -/
theorem Instr.rename_eq_error {ε L F L' F' : Type} {onLocal : L → Except ε L'}
    {onFunction : F → Except ε F'} {i : Instr L F} {e : ε}
    (failed : i.rename onLocal onFunction = .error e) :
    (∃ l ∈ i.local?, onLocal l = .error e) ∨ ∃ f ∈ i.callee?, onFunction f = .error e := by
  cases i with
  | op o =>
    cases o with
    | localGet l | localSet l =>
      simp only [rename, Op.rename, bind_eq_error, pure, Except.pure, reduceCtorEq, and_false,
        exists_false, or_false] at failed
      exact .inl ⟨l, rfl, failed⟩
    | call f =>
      simp only [rename, Op.rename, bind_eq_error, pure, Except.pure, reduceCtorEq, and_false,
        exists_false, or_false] at failed
      exact .inr ⟨f, rfl, failed⟩
    | _ => cases failed
  | _ => cases failed

namespace Assembler

variable {a : Assembler} {n : Numbering}

/-- Linking fails at a local without a slot or at a function without an index. -/
theorem link_eq_error {e : EmitError} (failed : a.link n = .error e) :
    ∃ i ∈ a.code, (∃ l ∈ i.local?, slot a.layout l = .error e) ∨
      ∃ f ∈ i.callee?, index n f = .error e := by
  unfold link at failed
  rcases bind_eq_error.1 failed with failed | ⟨body, -, ⟨⟩⟩
  obtain ⟨i, mem, failed⟩ := exists_of_mapM_eq_error failed
  exact ⟨i, mem, Instr.rename_eq_error failed⟩

/-- Locals in the code have slots, so finishing a body never fails for want of one. -/
theorem Assembled.isGuard_finish (assembled : a.Assembled) (tidy : a.scope.decl.Tidy)
    {e : EmitError} (failed : a.finish n = .error e) : e.isGuard = false := by
  unfold finish at failed
  split at failed
  · obtain ⟨i, mem, ⟨l, named, missing⟩ | ⟨f, named, missing⟩⟩ :=
      link_eq_error (map_eq_error.1 failed)
    · obtain ⟨k, slot⟩ := Option.isSome_iff_exists.1 (assembled.slotted tidy mem named)
      rw [Assembler.slot, slot] at missing
      cases missing
    · obtain ⟨cause, -, rfl⟩ := mapError_eq_error.1 missing
      rfl
  · cases failed
    rfl

/-- A single instruction is never refused at a guard. -/
theorem isGuard_push {i : SymbolicInstr} {e : EmitError} (failed : a.push i = .error e) :
    e.isGuard = false := by
  cases i with
  | op o =>
    cases o with
    | localGet l | localSet l =>
      rcases bind_eq_error.1 failed with untyped | ⟨t, -, ⟨⟩⟩
      exact Scope.unguarded_localType l e untyped
    | br label | brIf label =>
      simp only [push] at failed
      split at failed
      · cases failed
      · cases failed
        rfl
    | _ => cases failed
  | block type | loop type => cases failed
  | close =>
    simp only [push] at failed
    split at failed
    · cases failed
      rfl
    · cases failed

/-- No command is refused at a guard. -/
theorem isGuard_perform (tidy : a.scope.decl.Tidy) {c : Command} {e : EmitError}
    (failed : (a.perform c).2 = .error e) : e.isGuard = false := by
  cases c with
  | instr i =>
    rcases a.perform_cases (.instr i) with
      ⟨j, b, -, -, done⟩ | ⟨j, e', -, refused, done⟩ | ⟨code, tree, -⟩
    · rw [done] at failed
      cases failed
    · rw [done] at failed
      cases failed
      exact isGuard_push refused
    · exact absurd rfl (tree i)
  | expr x => exact Scope.unguarded_expr x e (map_eq_error.1 failed)
  | stmt c => exact Scope.unguarded_stmt tidy c e failed
  | stmts cs => exact Scope.unguarded_stmts tidy cs e failed

/-- In this state the guards of an assembler hold. -/
structure Faultless (a : Assembler) : Prop where
  /-- Every look-up of the type of a touched local succeeds, and the table is the layout. -/
  lookups : ∃ ints floats, a.roster.fill? = some (ints, floats) ∧
    ints.next = a.scope.decl.params.length + a.layout.ints.length ∧
    floats.next = ints.next + a.layout.floats.length ∧
    ∀ i, floats.slots[i]?.join = a.layout.slotOf? (.var i)
  /-- The set of touched locals can be kept from command to command. -/
  kept : ∀ c, a.roster.perform c = ((a.perform c).1.roster, (a.perform c).2)
  /-- No command is refused at a guard. -/
  perform : ∀ c e, (a.perform c).2 = .error e → e.isGuard = false
  /-- Whatever the numbering, finishing does not fail at a guard. -/
  finish : ∀ n e, a.finish n = .error e → e.isGuard = false

theorem Assembled.faultless (assembled : a.Assembled) (tidy : a.scope.decl.Tidy) : a.Faultless :=
  ⟨assembled.fill?_roster, a.roster_perform, fun _ _ => isGuard_perform tidy,
    fun _ _ => assembled.isGuard_finish tidy⟩

end Assembler

/-! ## Module drafts -/

namespace ModuleDraft

variable {p : Program} {n : Numbering} {o : EmitOptions} {m : ModuleDraft}
  {imports defined : List Declaration}

/-- A numbering that is accepted has exactly the handles of the program: it has as many, all of them
of this program and below its size, and none twice. -/
theorem Accepts.perm_refs (accepts : Accepts p n o imports defined) (complete : n.Complete) :
    n.refs.Perm p.refs := by
  have nodup : p.refs.Nodup := List.nodup_range.map fun i j same => congrArg FuncRef.index same
  refine (List.perm_ext_iff_of_nodup complete.nodup_refs nodup).2 ?_
  intro f
  rw [complete.mem_refs, accepts.program, accepts.size, Program.mem_refs, Program.owns_iff]

/-- In a numbering that is accepted, imports come before defined functions. -/
theorem Accepts.imports_first (accepts : Accepts p n o imports defined) :
    ∃ fs gs, n.refs = fs ++ gs ∧ (∀ f ∈ fs, ∃ d, p.get? f = some d ∧ d.isImport = true) ∧
      ∀ g ∈ gs, ∃ d, p.get? g = some d ∧ d.isImport = false := by
  have part : ∀ {fs : List FuncRef} {ds : List Declaration} {b : Bool},
      fs.map p.get? = ds.map some → (∀ d ∈ ds, d.isImport = b) →
        ∀ f ∈ fs, ∃ d, p.get? f = some d ∧ d.isImport = b := by
    intro fs ds b refs all f mem
    obtain ⟨d, listed, known⟩ := exists_mem_of_map_get? refs mem
    exact ⟨d, known, all d listed⟩
  have refs := accepts.refs
  rw [List.map_append] at refs
  obtain ⟨fs, gs, split, first, second⟩ := List.map_eq_append_iff.1 refs
  exact ⟨fs, gs, split, part first accepts.imported, part second accepts.defined⟩

/-- Every handle of a numbering that is accepted is declared. -/
theorem Accepts.exists_declaration (accepts : Accepts p n o imports defined) {f : FuncRef}
    (mem : f ∈ n.refs) : ∃ d, declaration p f = .ok d := by
  obtain ⟨d, -, known⟩ := exists_mem_of_map_get? accepts.refs mem
  exact ⟨d, declaration_eq_ok.2 known⟩

/-! ### Bodies in a row -/

/-- The draft after it is asked to add a body; if it refuses, it stays as it is. -/
def attempt (m : ModuleDraft) (entry : FuncRef × Bytes) : ModuleDraft :=
  match m.addBody entry.1 entry.2 with
  | .ok m' => m'
  | .error _ => m

/-- The draft after it is asked to add bodies, first to last. -/
def attempts (m : ModuleDraft) (entries : List (FuncRef × Bytes)) : ModuleDraft :=
  entries.foldl attempt m

theorem fixed_attempt (m : ModuleDraft) (entry : FuncRef × Bytes) :
    (m.attempt entry).program = m.program ∧ (m.attempt entry).numbering = m.numbering := by
  unfold attempt
  split
  · rename_i m' added
    obtain ⟨i, d, -, -, -, -, rfl⟩ := addBody_eq_ok.1 added
    exact ⟨rfl, rfl⟩
  · exact ⟨rfl, rfl⟩

theorem fixed_attempts (m : ModuleDraft) (entries : List (FuncRef × Bytes)) :
    (m.attempts entries).program = m.program ∧ (m.attempts entries).numbering = m.numbering := by
  induction entries generalizing m with
  | nil => exact ⟨rfl, rfl⟩
  | cons entry entries ih =>
    obtain ⟨program, numbering⟩ := ih (m.attempt entry)
    obtain ⟨program', numbering'⟩ := m.fixed_attempt entry
    exact ⟨program.trans program', numbering.trans numbering'⟩

end ModuleDraft

/-! ### Bodies on a shelf -/

/-- A module draft that keeps its bodies by function index, with a place for each function. -/
structure Shelf where
  /-- The program. -/
  program : Program
  /-- The indices of its functions. -/
  numbering : Numbering
  /-- The options. -/
  options : EmitOptions
  /-- The bodies so far. -/
  bodies : List (Option Bytes)

namespace Shelf

open ModuleDraft (declaration)

/-- The shelf for a program, with a free place for each function. -/
def start (p : Program) (n : Numbering) (o : EmitOptions) : Except EmitError Shelf :=
  (ModuleDraft.start p n o).map fun _ => ⟨p, n, o, .replicate n.size none⟩

/-- Adds the body of a function at its place.  There is no result if the shelf does not have the
place. -/
def addBody? (s : Shelf) (f : FuncRef) (body : Bytes) : Option (Except EmitError Shelf) :=
  match s.numbering.indexOf f with
  | .error e => some (.error (.resolution e))
  | .ok index =>
    match declaration s.program f with
    | .error e => some (.error e)
    | .ok d =>
      if d.isImport then some (.error (.lowering (.bodyOfImport d.name)))
      else
        s.bodies[index]?.map fun
          | some _ => .error (.lowering (.secondBody d.name))
          | none => .ok { s with bodies := s.bodies.set index (some body) }

/-- The shelf after it is asked to add a body; if it refuses, it stays as it is. -/
def attempt? (s : Shelf) (entry : FuncRef × Bytes) : Option Shelf :=
  (s.addBody? entry.1 entry.2).map fun
    | .ok s' => s'
    | .error _ => s

/-- The shelf after it is asked to add bodies, first to last. -/
def attempts? (s : Shelf) (entries : List (FuncRef × Bytes)) : Option Shelf :=
  entries.foldlM attempt? s

/-- The bodies of defined functions, from their places.  There is no result if the shelf does not
have one of the places. -/
def gather? (s : Shelf) (entries : List (Nat × Declaration)) : Option (List (Option Bytes)) :=
  (ModuleDraft.defined entries).mapM fun e => s.bodies[e.1]?

end Shelf

namespace ModuleDraft

variable {p : Program} {n : Numbering} {o : EmitOptions} {m : ModuleDraft}
  {imports defined : List Declaration}

/-- A draft, with its bodies on a shelf. -/
def shelf (m : ModuleDraft) : Shelf :=
  ⟨m.program, m.numbering, m.options,
    (List.range m.numbering.size).map fun i => m.bodies.lookup i⟩

@[simp] theorem shelf_program (m : ModuleDraft) : m.shelf.program = m.program := rfl

@[simp] theorem shelf_numbering (m : ModuleDraft) : m.shelf.numbering = m.numbering := rfl

theorem getElem?_shelf {i : Nat} (inside : i < m.numbering.size) :
    m.shelf.bodies[i]? = some (m.bodies.lookup i) := by
  simp [shelf, inside]

theorem shelf_start (p : Program) (n : Numbering) (o : EmitOptions) :
    Shelf.start p n o = (ModuleDraft.start p n o).map shelf := by
  rw [Shelf.start]
  cases started : ModuleDraft.start p n o with
  | error e => rfl
  | ok first =>
    obtain ⟨-, rfl⟩ := start_eq_ok.1 started
    have free : (List.range n.size).map (fun i => ([] : List (Nat × Bytes)).lookup i) =
        .replicate n.size none := by
      rw [List.eq_replicate_iff]
      simp
    exact congrArg (fun bodies => Except.ok (Shelf.mk p n o bodies)) free.symm

/-- One more body: its place is filled, and the others stay. -/
theorem shelf_cons {i : Nat} {body : Bytes} :
    shelf { m with bodies := (i, body) :: m.bodies } =
      { m.shelf with bodies := m.shelf.bodies.set i (some body) } := by
  refine congrArg (Shelf.mk _ _ _) (List.ext_getElem? fun j => ?_)
  by_cases inside : j < m.numbering.size
  · refine (getElem?_shelf (m := { m with bodies := (i, body) :: m.bodies }) inside).trans ?_
    rw [List.lookup_cons, List.getElem?_set]
    by_cases same : j = i
    · subst same
      simp [shelf, inside]
    · simp [Ne.symm same, beq_false_of_ne same, getElem?_shelf inside]
  · rw [List.getElem?_eq_none (by simpa using inside),
      List.getElem?_eq_none (by simpa [shelf] using inside)]

/-- A shelf has the place of every body that is added, answers as the draft does, and stays its
shelf. -/
theorem shelf_addBody (m : ModuleDraft) (f : FuncRef) (body : Bytes) :
    m.shelf.addBody? f body = some ((m.addBody f body).map shelf) := by
  unfold Shelf.addBody? addBody
  simp only [shelf_program, shelf_numbering]
  cases index : m.numbering.indexOf f with
  | error e => rfl
  | ok i =>
    have inside := Numbering.lt_size_of_indexOf? (Numbering.indexOf_eq_ok.1 index)
    cases declared : declaration m.program f with
    | error e => rfl
    | ok d =>
      simp only [Except.mapError, bind, Except.bind]
      split
      · rfl
      · rw [getElem?_shelf inside]
        cases m.bodies.lookup i with
        | some old => rfl
        | none => simp [Except.map, shelf_cons]

theorem shelf_attempt (m : ModuleDraft) (entry : FuncRef × Bytes) :
    m.shelf.attempt? entry = some (m.attempt entry).shelf := by
  rw [Shelf.attempt?, shelf_addBody, attempt]
  cases m.addBody entry.1 entry.2 <;> rfl

theorem shelf_attempts (m : ModuleDraft) (entries : List (FuncRef × Bytes)) :
    m.shelf.attempts? entries = some (m.attempts entries).shelf := by
  induction entries generalizing m with
  | nil => rfl
  | cons entry entries ih =>
    rw [Shelf.attempts?, List.foldlM_cons, shelf_attempt]
    exact ih (m.attempt entry)

/-- In this state the guards of a module draft hold. -/
structure Faultless (m : ModuleDraft) : Prop where
  /-- A handle that has an index is declared. -/
  registered : ∀ f i, m.numbering.indexOf f = .ok i → ∃ d, declaration m.program f = .ok d
  /-- The shelf has the place of a body that is added, and can be kept from body to body. -/
  placed : ∀ f body, m.shelf.addBody? f body = some ((m.addBody f body).map shelf)
  /-- All handles of the numbering are declared, and the shelf has the places of the defined
  ones. -/
  gathered : ∃ entries, m.indexed = .ok entries ∧
    m.shelf.gather? entries =
      some ((ModuleDraft.defined entries).map fun e => m.bodies.lookup e.1)
  /-- Whatever the validator, finishing does not fail for want of a declaration. -/
  finish : ∀ valid e cause, m.finishWith valid = .error e → e ≠ .resolution cause

theorem Accepts.faultless (accepts : Accepts p n o imports defined) (program : m.program = p)
    (numbering : m.numbering = n) : m.Faultless := by
  have indexed : m.indexed = .ok ((List.range (imports ++ defined).length).zip
      (imports ++ defined)) := by
    refine indexed_eq_ok.2 ⟨imports ++ defined, ?_, rfl⟩
    rw [program, numbering]
    exact accepts.refs
  -- whatever was added, the handles of the draft are those that were checked at its start
  refine ⟨?_, m.shelf_addBody, ⟨_, indexed, ?_⟩, ?_⟩
  · intro f i index
    rw [numbering, Numbering.indexOf_eq_ok] at index
    rw [program]
    exact accepts.exists_declaration
      (List.mem_of_getElem? (Numbering.getElem?_refs_of_indexOf? index))
  · rw [Shelf.gather?, mapM_eq_some, List.map_map]
    refine List.map_congr_left fun e mem => getElem?_shelf ?_
    have inside := List.mem_range.1 (List.of_mem_zip (List.mem_of_mem_filter mem)).1
    have size : n.refs.length = (imports ++ defined).length := by
      simpa using congrArg List.length accepts.refs
    rw [numbering, ← n.length_refs, size]
    exact inside
  · rintro valid e cause failed rfl
    unfold finishWith at failed
    rcases bind_eq_error.1 failed with failed | ⟨mod, -, failed⟩
    · unfold toModule at failed
      rcases bind_eq_error.1 failed with failed | ⟨entries, -, failed⟩
      · rw [indexed] at failed
        cases failed
      · rcases bind_eq_error.1 failed with failed | ⟨code, -, ⟨⟩⟩
        obtain ⟨entry, -, failed⟩ := exists_of_mapM_eq_error failed
        unfold bodyOf at failed
        split at failed <;> cases failed
    · dsimp only at failed
      split at failed <;> cases failed

end ModuleDraft

/-- The guards of assemblers and of module drafts hold in every state that can be reached.  A draft
may have a numbering that was drawn up for any program, as long as the draft accepts it: then the
numbering is a permutation of the program's handles, imports first.  The set of touched locals and
the row of bodies with a place for each function can be kept from the start on. -/
theorem Program.guards_hold {p : Program} (built : p.Built) :
    (∀ f first, Assembler.start p f = .ok first →
      Roster.start p f = .ok first.roster ∧ ∀ commands,
        first.roster.run commands = (first.run commands).roster ∧
        (first.run commands).Faultless) ∧
    ∀ (q : Program) (n : Numbering) o first, n.Drawn q → ModuleDraft.start p n o = .ok first →
      n.refs.Perm p.refs ∧
      (∃ fs gs, n.refs = fs ++ gs ∧ (∀ f ∈ fs, ∃ d, p.get? f = some d ∧ d.isImport = true) ∧
        ∀ g ∈ gs, ∃ d, p.get? g = some d ∧ d.isImport = false) ∧
      Shelf.start p n o = .ok first.shelf ∧ ∀ entries,
        first.shelf.attempts? entries = some (first.attempts entries).shelf ∧
        (first.attempts entries).Faultless := by
  constructor
  · intro f first started
    refine ⟨by rw [Assembler.roster_start, started]; rfl, fun commands => ?_⟩
    refine ⟨first.roster_run commands, ?_⟩
    exact (Assembler.assembled_run started commands).faultless
      (Assembler.tidy_run built started commands)
  · intro q n o first drawn started
    have kept : Shelf.start p n o = .ok first.shelf := by
      rw [ModuleDraft.shelf_start, started]
      rfl
    obtain ⟨⟨imports, defined, accepts⟩, rfl⟩ := ModuleDraft.start_eq_ok.1 started
    refine ⟨accepts.perm_refs drawn.complete, accepts.imports_first, kept, fun entries => ?_⟩
    refine ⟨ModuleDraft.shelf_attempts _ entries, ?_⟩
    obtain ⟨program, numbering⟩ := ModuleDraft.fixed_attempts ⟨p, n, o, []⟩ entries
    exact accepts.faultless program numbering

/-- A program with the identity and the size of `Program.sample` and other declarations, as a copy
that went another way can be. -/
def Program.sampleCopy : Program where
  id := 7
  decls := #[
    { name := "wait", params := [], result := .void, linkage := .imported "" },
    { name := "step", params := [⟨.int32, "n"⟩], result := .int32, linkage := .internal },
    { name := "log", params := [⟨.float32, "x"⟩], result := .void, linkage := .imported "" }]

/-- Commands that are refused in part; a numbering that was drawn up for the copy; bodies of which
one is for an import, one for a function of another program and one for a function that has one. -/
theorem Program.guards_hold_sample :
    (∃ first, Assembler.start sample ⟨7, 0⟩ = .ok first ∧
      Roster.start sample ⟨7, 0⟩ = .ok first.roster ∧
      (let own (place : Place) : Local := ⟨⟨7, 0⟩, place⟩
       let commands := [.stmt (.increment (own (.var 1))), .stmts [.increment (own (.var 0)),
         .increment (own (.var 2))], .instr .close]
       first.roster.run commands = (first.run commands).roster ∧
         (first.roster.run commands).used = {0, 1} ∧ (first.run commands).Faultless)) ∧
    Numbering.sample.Drawn sampleCopy ∧
    ∃ first, ModuleDraft.start sample Numbering.sample ⟨none⟩ = .ok first ∧
      Numbering.sample.refs.Perm sample.refs ∧
      Shelf.start sample Numbering.sample ⟨none⟩ = .ok first.shelf ∧
      (let entries := [(⟨7, 1⟩, []), (⟨7, 0⟩, [1]), (⟨8, 2⟩, [2]), (⟨7, 0⟩, [3])]
       first.shelf.attempts? entries = some (first.attempts entries).shelf ∧
         (first.attempts entries).shelf.bodies = [none, some [1], none] ∧
         (first.attempts entries).Faultless) := by
  obtain ⟨assembling, drafting⟩ := guards_hold built_sample
  have known : sample.get? ⟨7, 0⟩ = some (sample.decls[0]) := by rfl
  have entered := start_of_defined known rfl
  have drawn : Numbering.sample.Drawn sampleCopy := by
    have row : (Numbering.Draft.ofProgram sampleCopy).assignAll [⟨7, 1⟩, ⟨7, 0⟩, ⟨7, 2⟩] =
        .ok ⟨7, 3, #[1, 0, 2]⟩ := by decide +kernel
    exact ⟨⟨7, 3, #[1, 0, 2]⟩, .assignAll .start row, by decide +kernel⟩
  have started : ModuleDraft.start sample .sample ⟨none⟩ = .ok ⟨sample, .sample, ⟨none⟩, []⟩ := by
    rfl
  obtain ⟨roster, bodies⟩ := assembling _ _ entered
  obtain ⟨perm, -, shelf, modules⟩ := drafting sampleCopy _ _ _ drawn started
  refine ⟨⟨_, entered, roster, (bodies _).1, ?_, (bodies _).2⟩, drawn, _, started, perm, shelf,
    (modules _).1, ?_, (modules _).2⟩
  · decide +kernel
  · decide +kernel

end WasmForge

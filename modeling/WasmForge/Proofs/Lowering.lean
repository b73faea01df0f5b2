import Mathlib
import WasmForge.Program.Typing
import WasmForge.Proofs.Declaring
import WasmForge.Proofs.Linking

/-!
# What lowering accepts and emits

Lowering succeeds exactly on the trees that make sense in their function, and the code of a tree is
put together from the code of its parts.  The code names locals of the function and functions of
the program only, so that it can be linked.

* `Scope.expr_eq_ok`, `Scope.stmt_eq_ok`: lowering succeeds exactly on well-typed trees.
* `Scope.code_expr_arith` and the like: the code of a tree from the code of its parts.
* `Scope.within_expr`, `Scope.within_stmt`: what the code names.
* `Program.lower_eq_ok`: the bytes of a lowered body.
-/

namespace WasmForge

theorem HaveTypes.length_eq {p : Program} {f : FuncRef} {es : List Expr} {ts : List ValueType}
    (h : HaveTypes p f es ts) : es.length = ts.length := by
  induction es generalizing ts with
  | nil =>
    cases h
    rfl
  | cons e es ih =>
    cases h with
    | cons head tail => rw [List.length_cons, List.length_cons, ih tail]

namespace Scope

open Emission

variable {s : Scope}

/-! ## Instructions by type -/

/-- The instruction that combines two values of a type. -/
def arithOp (op : Arith) : ValueType → Op Local FuncRef
  | .float32 => .f32Arith op
  | _ => .i32Arith op

/-- The instruction that pushes the one of a type. -/
def oneOp : ValueType → Op Local FuncRef
  | .float32 => .f32Const .one
  | _ => .i32Const 1

theorem code_arith {op : Arith} {t : ValueType} (value : t ≠ .void) :
    (s.arith op t).code = [.op (arithOp op t)] := by
  cases t with
  | void => exact absurd rfl value
  | int32 => rfl
  | float32 => rfl

/-! ## Well-typed trees -/

theorem callee_eq_ok {f : FuncRef} {d : Declaration} :
    s.callee f = .ok d ↔ s.program.get? f = some d := by
  unfold callee
  cases s.program.get? f <;> simp

theorem arith_eq_ok {op : Arith} {t : ValueType} : (s.arith op t).outcome = .ok () ↔ t ≠ .void := by
  cases t <;> simp [arith]

variable (known : s.program.get? s.func = some s.decl)

include known

theorem localType_eq_ok {l : Local} {t : ValueType} :
    s.localType l = .ok t ↔ l.owner = s.func ∧ s.program.localType? l = some t := by
  unfold localType Program.localType?
  split
  · rename_i own
    rw [own, known, Option.bind_some]
    cases s.decl.localType? l.place <;> simp
  · rename_i foreign
    simp [foreign]

set_option linter.unusedSectionVars false in
mutual

/-- An expression is lowered exactly when it has a type, and then to that type. -/
theorem expr_eq_ok (e : Expr) (t : ValueType) :
    (s.expr e).outcome = .ok t ↔ HasType s.program s.func e t := by
  cases e with
  | int v =>
    simp only [expr, outcome_bind_eq_ok, outcome_emit, outcome_pure]
    constructor
    · rintro ⟨_, -, h⟩
      cases h
      exact .int v
    · rintro ⟨⟩
      exact ⟨(), trivial, rfl⟩
  | float v =>
    simp only [expr, outcome_bind_eq_ok, outcome_emit, outcome_pure]
    constructor
    · rintro ⟨_, -, h⟩
      cases h
      exact .float v
    · rintro ⟨⟩
      exact ⟨(), trivial, rfl⟩
  | var l =>
    simp only [expr, outcome_bind_eq_ok, outcome_emit, outcome_pure, outcome_lift,
      localType_eq_ok known]
    constructor
    · rintro ⟨_, ⟨own, declared⟩, _, -, h⟩
      cases h
      exact .var own declared
    · rintro (_ | _ | ⟨own, declared⟩)
      exact ⟨t, ⟨own, declared⟩, (), trivial, rfl⟩
  | arith op left right =>
    simp only [expr, outcome_bind_eq_ok, expr_eq_ok left, expr_eq_ok right]
    constructor
    · rintro ⟨lt, hl, rt, hr, h⟩
      split at h
      · rename_i same
        obtain ⟨_, value, h⟩ := outcome_bind_eq_ok.1 h
        cases h
        exact .arith (arith_eq_ok.1 value) hl (same ▸ hr)
      · cases h
    · rintro (_ | _ | _ | ⟨value, hl, hr⟩)
      refine ⟨t, hl, t, hr, ?_⟩
      rw [if_pos rfl, outcome_bind_eq_ok]
      exact ⟨(), arith_eq_ok.2 value, rfl⟩
  | call f args =>
    simp only [expr, outcome_bind_eq_ok, outcome_lift, callee_eq_ok]
    constructor
    · rintro ⟨d, callee, h⟩
      split at h
      · rename_i same
        obtain ⟨_, typed, h⟩ := outcome_bind_eq_ok.1 h
        obtain ⟨_, -, h⟩ := outcome_bind_eq_ok.1 h
        cases h
        exact .call callee ((arguments_eq_ok d.name d.params args same).1 typed)
      · cases h
    · rintro (_ | _ | _ | _ | ⟨callee, typed⟩)
      rename_i d
      have same : d.params.length = args.length := by simpa using typed.length_eq.symm
      refine ⟨d, callee, ?_⟩
      rw [if_pos same, outcome_bind_eq_ok]
      refine ⟨(), (arguments_eq_ok d.name d.params args same).2 typed, ?_⟩
      exact outcome_bind_eq_ok.2 ⟨(), rfl, rfl⟩

/-- Arguments are lowered exactly when they have the types of the parameters. -/
theorem arguments_eq_ok (callee : String)
    (params : List Param) (args : List Expr) (same : params.length = args.length) :
    (s.arguments callee params args).outcome = .ok () ↔
      HaveTypes s.program s.func args (params.map (·.type)) := by
  cases params with
  | nil =>
    cases args with
    | nil => exact ⟨fun _ => .nil, fun _ => by simp [arguments]⟩
    | cons e args => cases same
  | cons q params =>
    cases args with
    | nil => cases same
    | cons e args =>
      simp only [arguments, outcome_bind_eq_ok, expr_eq_ok e, List.map_cons]
      have rest := arguments_eq_ok callee params args (Nat.succ.inj same)
      constructor
      · rintro ⟨t, head, h⟩
        split at h
        · rename_i type
          exact .cons (type ▸ head) (rest.1 h)
        · cases h
      · rintro (_ | ⟨head, tail⟩)
        exact ⟨q.type, head, by rw [if_pos rfl]; exact rest.2 tail⟩

end

theorem assign_eq_ok {l : Local} {e : Expr} :
    (s.assign l e).outcome = .ok () ↔ WellTyped s.program s.func (.assign l e) := by
  simp only [assign, outcome_bind_eq_ok, outcome_lift, localType_eq_ok known, expr_eq_ok known]
  constructor
  · rintro ⟨t, ⟨own, declared⟩, u, value, h⟩
    split at h
    · rename_i same
      exact .assign own declared (same ▸ value)
    · cases h
  · rintro ⟨own, declared, value⟩
    exact ⟨_, ⟨own, declared⟩, _, value, by rw [if_pos rfl]; rfl⟩

theorem increment_eq_ok {l : Local} :
    (s.increment l).outcome = .ok () ↔ WellTyped s.program s.func (.increment l) := by
  simp only [increment, outcome_bind_eq_ok, outcome_lift, localType_eq_ok known]
  constructor
  · rintro ⟨t, ⟨own, declared⟩, _, -, h⟩
    refine .increment own declared ?_
    rintro rfl
    obtain ⟨_, h, -⟩ := outcome_bind_eq_ok.1 h
    cases h
  · rintro (_ | ⟨own, declared, value⟩)
    rename_i t
    refine ⟨t, ⟨own, declared⟩, (), rfl, ?_⟩
    cases t with
    | void => exact absurd rfl value
    | int32 => rfl
    | float32 => rfl

theorem ret_eq_ok {e : Expr} :
    (s.ret e).outcome = .ok () ↔ WellTyped s.program s.func (.ret e) := by
  simp only [ret, outcome_bind_eq_ok, expr_eq_ok known]
  constructor
  · rintro ⟨t, value, h⟩
    split at h
    · rename_i same
      exact .ret known (same ▸ value)
    · cases h
  · rintro (_ | _ | ⟨declared, value⟩)
    obtain rfl := Option.some.inj (known.symm.trans declared)
    exact ⟨_, value, by rw [if_pos rfl]; rfl⟩

theorem discard_eq_ok {e : Expr} :
    (s.discard e).outcome = .ok () ↔ WellTyped s.program s.func (.expr e) := by
  simp only [discard, outcome_bind_eq_ok, expr_eq_ok known]
  constructor
  · rintro ⟨t, value, -⟩
    exact .expr value
  · rintro (_ | _ | _ | value)
    exact ⟨_, value, by split <;> rfl⟩

set_option linter.unusedSectionVars false in
mutual

/-- A statement is lowered exactly when it makes sense in its function. -/
theorem stmt_eq_ok (c : Stmt) :
    (s.stmt c).outcome = .ok () ↔ WellTyped s.program s.func c := by
  cases c with
  | assign l e => exact assign_eq_ok known
  | increment l => exact increment_eq_ok known
  | ret e => exact ret_eq_ok known
  | expr e => exact discard_eq_ok known
  | block body =>
    rw [stmt, stmts_eq_ok body]
    constructor
    · intro parts
      exact .block parts
    · rintro (_ | _ | _ | _ | parts)
      exact parts

theorem stmts_eq_ok (cs : List Stmt) :
    (s.stmts cs).outcome = .ok () ↔ ∀ c ∈ cs, WellTyped s.program s.func c := by
  cases cs with
  | nil => simp [stmts]
  | cons c cs =>
    rw [stmts, outcome_bind_eq_ok, List.forall_mem_cons, ← stmt_eq_ok c,
      ← stmts_eq_ok cs]
    exact ⟨fun ⟨_, head, tail⟩ => ⟨head, tail⟩, fun ⟨head, tail⟩ => ⟨(), head, tail⟩⟩

end

/-! ## The code of well-typed trees -/

theorem code_expr_var {l : Local} {t : ValueType}
    (own : l.owner = s.func) (declared : s.program.localType? l = some t) :
    (s.expr (.var l)).code = [.op (.localGet l)] := by
  rw [expr, bind_of_ok (x := lift (s.localType l)) ((localType_eq_ok known).2 ⟨own, declared⟩)]
  rfl

theorem code_expr_arith {op : Arith}
    {left right : Expr} {t : ValueType} (value : t ≠ .void)
    (hl : HasType s.program s.func left t) (hr : HasType s.program s.func right t) :
    (s.expr (.arith op left right)).code =
      (s.expr left).code ++ (s.expr right).code ++ [.op (arithOp op t)] := by
  rw [expr, bind_of_ok ((expr_eq_ok known left t).2 hl),
    bind_of_ok ((expr_eq_ok known right t).2 hr), if_pos rfl, bind_of_ok (arith_eq_ok.2 value),
    code_arith value]
  simp

theorem code_arguments {callee : String}
    {params : List Param} {args : List Expr}
    (typed : HaveTypes s.program s.func args (params.map (·.type))) :
    (s.arguments callee params args).code = args.flatMap fun e => (s.expr e).code := by
  induction args generalizing params with
  | nil => cases params <;> simp [arguments]
  | cons e args ih =>
    cases params with
    | nil => cases typed
    | cons q params =>
      cases typed with
      | cons head tail =>
        rw [arguments, bind_of_ok ((expr_eq_ok known e q.type).2 head), if_pos rfl, ih tail,
          List.flatMap_cons]

theorem code_expr_call {g : FuncRef}
    {d : Declaration} {args : List Expr} (callee : s.program.get? g = some d)
    (typed : HaveTypes s.program s.func args (d.params.map (·.type))) :
    (s.expr (.call g args)).code =
      (args.flatMap fun e => (s.expr e).code) ++ [.op (.call g)] := by
  have same : d.params.length = args.length := by simpa using typed.length_eq.symm
  have ok := (arguments_eq_ok known d.name d.params args same).2 typed
  rw [expr, bind_of_ok (x := lift (s.callee g)) (callee_eq_ok.2 callee), if_pos same, bind_of_ok ok,
    code_arguments known typed]
  rfl

theorem code_assign {l : Local} {e : Expr}
    {t : ValueType} (own : l.owner = s.func) (declared : s.program.localType? l = some t)
    (value : HasType s.program s.func e t) :
    (s.assign l e).code = (s.expr e).code ++ [.op (.localSet l)] := by
  rw [assign, bind_of_ok (x := lift (s.localType l)) ((localType_eq_ok known).2 ⟨own, declared⟩),
    bind_of_ok ((expr_eq_ok known e t).2 value), if_pos rfl]
  rfl

theorem code_increment {l : Local} {t : ValueType}
    (own : l.owner = s.func) (declared : s.program.localType? l = some t) (value : t ≠ .void) :
    (s.increment l).code =
      [.op (.localGet l), .op (oneOp t), .op (arithOp .add t), .op (.localSet l)] := by
  rw [increment, bind_of_ok (x := lift (s.localType l)) ((localType_eq_ok known).2 ⟨own, declared⟩)]
  cases t with
  | void => exact absurd rfl value
  | int32 => rfl
  | float32 => rfl

theorem code_ret {e : Expr}
    (value : HasType s.program s.func e s.decl.result) :
    (s.ret e).code = (s.expr e).code ++ [.op .ret] := by
  rw [ret, bind_of_ok ((expr_eq_ok known e _).2 value), if_pos rfl]
  rfl

theorem code_discard {e : Expr} {t : ValueType}
    (value : HasType s.program s.func e t) :
    (s.discard e).code = (s.expr e).code ++ if t = .void then [] else [.op .drop] := by
  rw [discard, bind_of_ok ((expr_eq_ok known e t).2 value)]
  split <;> rfl

theorem code_stmts {cs : List Stmt}
    (parts : ∀ c ∈ cs, WellTyped s.program s.func c) :
    (s.stmts cs).code = cs.flatMap fun c => (s.stmt c).code := by
  induction cs with
  | nil => simp [stmts]
  | cons c cs ih =>
    rw [List.forall_mem_cons] at parts
    rw [stmts, bind_of_ok ((stmt_eq_ok known c).2 parts.1), ih parts.2, List.flatMap_cons]

/-! ## Names in the code -/

omit known

/-- Is the item an instruction of one step that is no branch, whose local is one of the function and
whose callee is one of the program? -/
structure Knows (s : Scope) (i : SymbolicInstr) : Prop where
  /-- No construct is opened, closed or left. -/
  straight : ∃ o, i = .op o ∧ o.branch? = none
  /-- The local. -/
  locals : ∀ l ∈ i.local?, l.owner = s.func ∧ ∃ t, s.decl.localType? l.place = some t
  /-- The callee. -/
  callees : ∀ g ∈ i.callee?, ∃ d, s.program.get? g = some d

/-- An emission of instructions that the function can name, whatever its outcome. -/
def Within {α : Type} (s : Scope) (x : Emission α) : Prop := ∀ i ∈ x.code, s.Knows i

theorem Within.bind {α β : Type} {x : Emission α} {f : α → Emission β} (first : s.Within x)
    (rest : ∀ a, x.outcome = .ok a → s.Within (f a)) : s.Within (x >>= f) := by
  cases ended : x.outcome with
  | error e =>
    rw [bind_of_error ended]
    exact first
  | ok a =>
    rw [bind_of_ok ended]
    intro i mem
    rcases List.mem_append.1 mem with mem | mem
    · exact first i mem
    · exact rest a ended i mem

theorem Within.of_nil {α : Type} {x : Emission α} (none : x.code = []) : s.Within x := by
  intro i mem
  rw [none] at mem
  cases mem

theorem within_emit {o : Op Local FuncRef} (noBranch : o.branch? = none) (noLocal : o.local? = none)
    (noCallee : o.callee? = none) : s.Within (emit o) := by
  intro i mem
  cases List.mem_singleton.1 mem
  exact ⟨⟨o, rfl, noBranch⟩, by simp [Instr.local?, noLocal], by simp [Instr.callee?, noCallee]⟩

theorem within_local {o : Op Local FuncRef} {l : Local} {t : ValueType}
    (own : s.localType l = .ok t) (noBranch : o.branch? = none) (here : o.local? = some l)
    (noCallee : o.callee? = none) :
    s.Within (emit o) := by
  intro i mem
  cases List.mem_singleton.1 mem
  refine ⟨⟨o, rfl, noBranch⟩, ?_, by simp [Instr.callee?, noCallee]⟩
  intro m named
  obtain rfl : l = m := by simpa [Instr.local?, here] using named
  unfold localType at own
  split at own
  · rename_i owner
    split at own
    · rename_i u declared
      exact ⟨owner, u, declared⟩
    · cases own
  · cases own

theorem within_arith (op : Arith) (t : ValueType) : s.Within (s.arith op t) := by
  cases t with
  | void => exact .of_nil rfl
  | int32 => exact within_emit rfl rfl rfl
  | float32 => exact within_emit rfl rfl rfl

mutual

/-- The code of an expression names what the function can name. -/
theorem within_expr (e : Expr) : s.Within (s.expr e) := by
  cases e with
  | int v => exact .bind (within_emit rfl rfl rfl) fun _ _ => .of_nil rfl
  | float v => exact .bind (within_emit rfl rfl rfl) fun _ _ => .of_nil rfl
  | var l =>
    refine .bind (.of_nil rfl) ?_
    intro t own
    exact .bind (within_local own rfl rfl rfl) fun _ _ => .of_nil rfl
  | arith op left right =>
    rw [expr]
    refine .bind (within_expr left) fun lt _ => .bind (within_expr right) fun rt _ => ?_
    split
    · exact .bind (within_arith op lt) fun _ _ => .of_nil rfl
    · exact .of_nil rfl
  | call g args =>
    rw [expr]
    refine .bind (.of_nil rfl) ?_
    intro d callee
    split
    · refine .bind (within_arguments d.name d.params args) fun _ _ =>
        .bind ?_ fun _ _ => .of_nil rfl
      intro i mem
      cases List.mem_singleton.1 mem
      refine ⟨⟨_, rfl, rfl⟩, by simp [Instr.local?, Op.local?], ?_⟩
      intro h named
      obtain rfl : g = h := by simpa [Instr.callee?, Op.callee?] using named
      exact ⟨d, callee_eq_ok.1 callee⟩
    · exact .of_nil rfl

theorem within_arguments (callee : String) (params : List Param) (args : List Expr) :
    s.Within (s.arguments callee params args) := by
  cases params with
  | nil => exact .of_nil (by simp [arguments])
  | cons q params =>
    cases args with
    | nil => exact .of_nil (by simp [arguments])
    | cons e args =>
      rw [arguments]
      refine .bind (within_expr e) fun t _ => ?_
      split
      · exact within_arguments callee params args
      · exact .of_nil rfl

end

mutual

/-- The code of a statement names what the function can name. -/
theorem within_stmt (c : Stmt) : s.Within (s.stmt c) := by
  cases c with
  | assign l e =>
    refine .bind (.of_nil rfl) fun target own => .bind (within_expr e) fun t _ => ?_
    split
    · exact within_local own rfl rfl rfl
    · exact .of_nil rfl
  | increment l =>
    refine .bind (.of_nil rfl) fun t own => .bind (within_local own rfl rfl rfl) fun _ _ => ?_
    cases t with
    | void => exact .bind (.of_nil rfl) fun _ _ => within_local own rfl rfl rfl
    | int32 =>
      exact .bind (within_emit rfl rfl rfl) fun _ _ => .bind (within_emit rfl rfl rfl)
        fun _ _ => within_local own rfl rfl rfl
    | float32 =>
      exact .bind (within_emit rfl rfl rfl) fun _ _ => .bind (within_emit rfl rfl rfl)
        fun _ _ => within_local own rfl rfl rfl
  | ret e =>
    refine .bind (within_expr e) fun t _ => ?_
    split
    · exact within_emit rfl rfl rfl
    · exact .of_nil rfl
  | expr e =>
    refine .bind (within_expr e) fun t _ => ?_
    split
    · exact .of_nil rfl
    · exact within_emit rfl rfl rfl
  | block body =>
    rw [stmt]
    exact within_stmts body

theorem within_stmts (cs : List Stmt) : s.Within (s.stmts cs) := by
  cases cs with
  | nil => exact .of_nil rfl
  | cons c cs =>
    rw [stmts]
    exact .bind (within_stmt c) fun _ _ => within_stmts cs

end

end Scope

/-! ## Lowered bodies -/

/-- Every declared local in the code of an assembler has a slot. -/
theorem Assembler.slotOf?_isSome {a : Assembler} {i : SymbolicInstr} (mem : i ∈ a.code) {l : Local}
    (named : l ∈ i.local?) {t : ValueType} (declared : a.scope.decl.localType? l.place = some t)
    (storable : t.isStorable = true) : (a.layout.slotOf? l.place).isSome = true := by
  rw [layout, SlotLayout.slotOf?_isSome]
  obtain ⟨owner, place⟩ := l
  cases place with
  | param k =>
    obtain ⟨q, at_k, -⟩ := Option.map_eq_some_iff.1 declared
    exact (List.getElem?_eq_some_iff.1 at_k).1
  | var k =>
    refine ⟨⟨t, declared, storable⟩, ?_⟩
    rw [List.contains_iff_mem, List.mem_filterMap]
    refine ⟨i, mem, ?_⟩
    cases i with
    | op o =>
      cases o with
      | localGet m =>
        cases named
        rfl
      | localSet m =>
        cases named
        rfl
      | _ => cases named
    | _ => cases named

namespace Scope

/-- The body of the function, assembled. -/
def assembled (s : Scope) (body : Stmt) : Assembler := ⟨s, (s.stmt body).code, 0⟩

/-- The body of the function, linked. -/
def code (s : Scope) (n : Numbering) (body : Stmt) : Code :=
  ⟨(s.assembled body).layout.localGroups,
    Assembler.linked (s.assembled body).layout n (s.stmt body).code ++ [.close]⟩

end Scope

namespace Program

variable {p : Program} {f : FuncRef} {d : Declaration} {n : Numbering}

/-- A numbering has an index for every function of the program. -/
def NumberedBy (p : Program) (n : Numbering) : Prop :=
  ∀ g d, p.get? g = some d → (n.indexOf? g).isSome = true

theorem start_of_defined (known : p.get? f = some d) (defined : d.isImport = false) :
    Assembler.start p f = .ok ⟨⟨p, f, d⟩, [], 0⟩ := by
  simp [Assembler.start, Scope.enter, known, defined, Except.map]

/-- A function is lowered exactly when it has a body that makes sense in it, and then to the bytes
of that body. -/
theorem lower_eq_ok (known : p.get? f = some d) (defined : d.isImport = false)
    (storable : ∀ place t, d.localType? place = some t → t.isStorable = true)
    (numbered : p.NumberedBy n) {bs : Bytes} :
    p.lower f d n = .ok bs ↔
      ∃ body, d.body = some body ∧ WellTyped p f body ∧
        bs = Bytes.sized ((⟨p, f, d⟩ : Scope).code n body).encode := by
  unfold lower
  cases d.body with
  | none => simp
  | some body =>
    have names : ∀ i ∈ ((⟨p, f, d⟩ : Scope).stmt body).code, _ := Scope.within_stmt body
    have link : ((⟨p, f, d⟩ : Scope).assembled body).link n =
        .ok ((⟨p, f, d⟩ : Scope).code n body) := by
      refine Assembler.link_eq_ok.2 ⟨?_, rfl⟩
      intro i mem
      refine ⟨?_, ?_⟩
      · intro l named
        obtain ⟨-, t, declared⟩ := (names i mem).locals l named
        exact Assembler.slotOf?_isSome mem named declared (storable _ t declared)
      · intro g named
        obtain ⟨e, callee⟩ := (names i mem).callees g named
        exact numbered g e callee
    rw [start_of_defined known defined]
    show (((⟨p, f, d⟩ : Scope).stmt body).outcome >>= fun _ =>
      ((⟨p, f, d⟩ : Scope).assembled body).finish n) = .ok bs ↔ _
    rw [bind_eq_ok]
    constructor
    · rintro ⟨⟨⟩, typed, finished⟩
      obtain ⟨-, c, linked, rfl⟩ := Assembler.finish_eq_ok.1 finished
      cases link.symm.trans linked
      exact ⟨body, rfl, (Scope.stmt_eq_ok known body).1 typed, rfl⟩
    · rintro ⟨_, ⟨⟩, typed, rfl⟩
      exact ⟨(), (Scope.stmt_eq_ok known body).2 typed,
        Assembler.finish_eq_ok.2 ⟨rfl, _, link, rfl⟩⟩

end Program

end WasmForge

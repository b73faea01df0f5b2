import Mathlib
import WasmForge.Proofs.Drafting
import WasmForge.Proofs.Lowering

/-!
# Lowered code keeps to the stack

The typing machine on lowered code: an expression leaves one value of its type, or none, on any
stack, and never looks below it.  A statement leaves nothing behind, or makes what follows
unreachable if it contains a return.  So the body of a function is well typed exactly when it has a
return wherever one is needed.

* `Typing.Grows`: code that pushes operands on any stack and does not depend on what lies below.
* `Scope.grows_expr`, `Scope.steps_stmt`: what emitted code does to the types on the stack.
* `Assembler.agree_of_knows`: in a linked body, slots and indices have the types of the handles.
* `Scope.check_code`: when a lowered body passes the check of a module.
-/

namespace WasmForge

namespace Typing.Frame

@[simp] theorem pushAll_pushAll (f : Frame) (ts us : List ValType) :
    (f.pushAll ts).pushAll us = f.pushAll (ts ++ us) := by
  simp [pushAll]

/-- What was pushed can be popped. -/
@[simp] theorem popAll_pushAll (f : Frame) (ts : List ValType) :
    (f.pushAll ts).popAll ts = some f := by
  have reversed : ∀ rs : List ValType,
      rs.foldlM pop { f with operands := rs ++ f.operands } = some f := by
    intro rs
    induction rs with
    | nil => rfl
    | cons r rs ih => simpa [pop] using ih
  exact reversed ts.reverse

/-- Where nothing can be reached, anything can be popped. -/
@[simp] theorem popAll_leave (f : Frame) (ts : List ValType) :
    f.leave.popAll ts = some f.leave := by
  have reversed : ∀ rs : List ValType, rs.foldlM pop f.leave = some f.leave := by
    intro rs
    induction rs with
    | nil => rfl
    | cons r rs ih => simpa [pop, leave] using ih
  exact reversed ts.reverse

/-- How code leaves a construct, if it contains a return or not. -/
structure After (returns : Prop) (f g : Frame) : Prop where
  /-- With a return, what follows is unreachable. -/
  left : returns → g = f.leave
  /-- Otherwise the construct is as before. -/
  kept : ¬returns → g = f

theorem After.trans {r r' : Prop} {f g h : Frame} (first : After r f g) (second : After r' g h) :
    After (r ∨ r') f h := by
  constructor
  · intro either
    by_cases now : r
    · by_cases later : r'
      · rw [second.left later, first.left now]
        rfl
      · rw [second.kept later, first.left now]
    · rw [second.left (either.resolve_left now), first.kept now]
  · intro neither
    rw [second.kept fun later => neither (.inr later), first.kept fun now => neither (.inl now)]

end Typing.Frame

namespace Typing

variable {L F : Type} {ctx : Context L F}

theorem steps_cons (frames : List Frame) (i : Instr L F) (code : List (Instr L F)) :
    steps ctx frames (i :: code) = (steps ctx frames [i]).bind (steps ctx · code) :=
  steps_append ctx frames [i] code

/-- The code pushes operands of the types `ts` on every construct.  So does every stretch of it from
its start, with types of its own, so that it never depends on what lies below. -/
structure Grows (ctx : Context L F) (code : List (Instr L F)) (ts : List ValType) : Prop where
  /-- All of the code. -/
  whole : ∀ fr outer, steps ctx (fr :: outer) code = some (fr.pushAll ts :: outer)
  /-- A stretch from its start. -/
  parts : ∀ c, c <+: code →
    ∃ us, ∀ fr outer, steps ctx (fr :: outer) c = some (fr.pushAll us :: outer)

theorem Grows.nil : Grows ctx [] [] := by
  refine ⟨fun _ _ => rfl, ?_⟩
  intro c within
  rw [List.prefix_nil.1 within]
  exact ⟨[], fun _ _ => rfl⟩

theorem Grows.append {c d : List (Instr L F)} {ts us : List ValType} (first : Grows ctx c ts)
    (second : Grows ctx d us) : Grows ctx (c ++ d) (ts ++ us) := by
  constructor
  · intro fr outer
    rw [steps_append, first.whole, Option.bind_some, second.whole, Frame.pushAll_pushAll]
  · intro part within
    rcases List.prefix_or_prefix_of_prefix within (List.prefix_append c d) with early | ⟨rest, rfl⟩
    · exact first.parts part early
    · obtain ⟨vs, pushes⟩ := second.parts rest ((List.prefix_append_right_inj c).1 within)
      refine ⟨ts ++ vs, ?_⟩
      intro fr outer
      rw [steps_append, first.whole, Option.bind_some, pushes, Frame.pushAll_pushAll]

/-- One more instruction, which takes all operands that were pushed and pushes others. -/
theorem Grows.concat {code : List (Instr L F)} {i : Instr L F} {ts us : List ValType}
    (grows : Grows ctx code ts)
    (last : ∀ (fr : Frame) (outer : List Frame),
      steps ctx (fr.pushAll ts :: outer) [i] = some (fr.pushAll us :: outer)) :
    Grows ctx (code ++ [i]) us := by
  have whole : ∀ fr outer, steps ctx (fr :: outer) (code ++ [i]) =
      some (fr.pushAll us :: outer) := by
    intro fr outer
    rw [steps_append, grows.whole, Option.bind_some, last]
  refine ⟨whole, ?_⟩
  intro part within
  rcases List.prefix_concat_iff.1 within with rfl | early
  · exact ⟨us, whole⟩
  · exact grows.parts part early

end Typing

namespace Scope

open Typing

/-- What the body of a function can refer to, by handles. -/
def context (s : Scope) (types : List FuncType) : Context Local FuncRef where
  localType? l := (s.program.localType? l).bind ValueType.valType?
  funcType? f := (s.program.get? f).map (·.funcType)
  types := types
  results := s.decl.result.valType?.toList

variable {s : Scope} {types : List FuncType}

theorem steps_op (ctx : Context Local FuncRef) (fr : Frame) (outer : List Frame)
    (o : Op Local FuncRef) :
    steps ctx (fr :: outer) [.op o] = (stepOp ctx (fr :: outer) fr o).map (· :: outer) := by
  simp [steps, step, Option.map_eq_bind]

theorem steps_arithOp {op : Arith} {t : ValueType} (value : t ≠ .void) (fr : Frame)
    (outer : List Frame) :
    steps (s.context types) ((fr.pushAll t.valType?.toList).pushAll t.valType?.toList :: outer)
        [.op (arithOp op t)] =
      some (fr.pushAll t.valType?.toList :: outer) := by
  rw [steps_op]
  cases t with
  | void => exact absurd rfl value
  | int32 => rfl
  | float32 => rfl

theorem steps_oneOp {t : ValueType} (value : t ≠ .void) (fr : Frame) (outer : List Frame) :
    steps (s.context types) (fr :: outer) [.op (oneOp t)] =
      some (fr.pushAll t.valType?.toList :: outer) := by
  rw [steps_op]
  cases t with
  | void => exact absurd rfl value
  | int32 => rfl
  | float32 => rfl

variable (known : s.program.get? s.func = some s.decl)
  (storable : ∀ place t, s.decl.localType? place = some t → t.isStorable = true)

include known storable

/-- The locals of the function hold values. -/
theorem localType?_context (types : List FuncType) {l : Local} {t : ValueType}
    (own : l.owner = s.func) (declared : s.program.localType? l = some t) :
    (s.context types).localType? l = some t.held ∧ t.valType? = some t.held := by
  have holds : t.valType? = some t.held := by
    refine ValueType.valType?_eq_some (storable l.place t ?_)
    rwa [Program.localType?, own, known, Option.bind_some] at declared
  refine ⟨?_, holds⟩
  show (s.program.localType? l).bind ValueType.valType? = _
  rw [declared, Option.bind_some, holds]

theorem steps_localGet {l : Local} {t : ValueType} (own : l.owner = s.func)
    (declared : s.program.localType? l = some t) (fr : Frame) (outer : List Frame) :
    steps (s.context types) (fr :: outer) [.op (.localGet l)] =
      some (fr.pushAll t.valType?.toList :: outer) := by
  obtain ⟨here, holds⟩ := localType?_context known storable types own declared
  rw [steps_op, stepOp, here, holds]
  rfl

theorem steps_localSet {l : Local} {t : ValueType} (own : l.owner = s.func)
    (declared : s.program.localType? l = some t) (fr : Frame) (outer : List Frame) :
    steps (s.context types) (fr.pushAll t.valType?.toList :: outer) [.op (.localSet l)] =
      some (fr :: outer) := by
  obtain ⟨here, holds⟩ := localType?_context known storable types own declared
  rw [steps_op, stepOp, here, holds]
  simp [Frame.pop, Frame.pushAll]

set_option linter.unusedSectionVars false in
mutual

/-- The code of an expression leaves a value of its type, on any stack. -/
theorem grows_expr {e : Expr} {t : ValueType} (typed : HasType s.program s.func e t) :
    Grows (s.context types) (s.expr e).code t.valType?.toList := by
  match typed with
  | .int v => exact Grows.nil.concat fun _ _ => rfl
  | .float v => exact Grows.nil.concat fun _ _ => rfl
  | .var own declared =>
    rw [code_expr_var known own declared]
    exact Grows.nil.concat fun fr outer => steps_localGet known storable own declared fr outer
  | .arith value hl hr =>
    rw [code_expr_arith known value hl hr]
    refine ((grows_expr hl).append (grows_expr hr)).concat ?_
    intro fr outer
    rw [← Frame.pushAll_pushAll]
    exact steps_arithOp value fr outer
  | .call (d := d) callee arguments =>
    rw [code_expr_call known callee arguments]
    refine (grows_arguments arguments).concat ?_
    intro fr outer
    have type : (s.context types).funcType? _ = some d.funcType := congrArg (Option.map _) callee
    have params : (d.params.map (·.type)).filterMap ValueType.valType? = d.funcType.params :=
      List.filterMap_map ..
    rw [steps_op, stepOp, type, params]
    simp [Declaration.funcType]

/-- The code of arguments leaves their values. -/
theorem grows_arguments {es : List Expr} {ts : List ValueType}
    (typed : HaveTypes s.program s.func es ts) :
    Grows (s.context types) (es.flatMap fun e => (s.expr e).code)
      (ts.filterMap ValueType.valType?) := by
  match typed with
  | .nil => exact .nil
  | .cons head tail =>
    rw [List.flatMap_cons, List.filterMap_eq_flatMap_toList, List.flatMap_cons,
      ← List.filterMap_eq_flatMap_toList]
    exact (grows_expr head).append (grows_arguments tail)

end

theorem steps_expr {e : Expr} {t : ValueType} (typed : HasType s.program s.func e t) (fr : Frame)
    (outer : List Frame) :
    steps (s.context types) (fr :: outer) (s.expr e).code =
      some (fr.pushAll t.valType?.toList :: outer) :=
  (grows_expr known storable typed).whole fr outer

/-- The code of a statement leaves the stack as it was, or, if there is a return in it, makes what
follows unreachable. -/
theorem steps_stmt {c : Stmt} (typed : WellTyped s.program s.func c) (fr : Frame)
    (outer : List Frame) :
    ∃ fr', steps (s.context types) (fr :: outer) (s.stmt c).code = some (fr' :: outer) ∧
      Frame.After c.Returns fr fr' := by
  induction typed generalizing fr with
  | assign own declared value =>
    refine ⟨fr, ?_, by rintro ⟨⟩, fun _ => rfl⟩
    rw [stmt, code_assign known own declared value, steps_append,
      steps_expr known storable value, Option.bind_some, steps_localSet known storable own declared]
  | increment own declared value =>
    refine ⟨fr, ?_, by rintro ⟨⟩, fun _ => rfl⟩
    rw [stmt, code_increment known own declared value, steps_cons,
      steps_localGet known storable own declared, Option.bind_some, steps_cons, steps_oneOp value,
      Option.bind_some, steps_cons, steps_arithOp value, Option.bind_some,
      steps_localSet known storable own declared]
  | ret declared value =>
    obtain rfl := Option.some.inj (known.symm.trans declared)
    refine ⟨fr.leave, ?_, fun _ => rfl, fun no => absurd (.ret _) no⟩
    rw [stmt, code_ret known value, steps_append, steps_expr known storable value,
      Option.bind_some, steps_op, stepOp]
    simp [context]
  | @expr e t value =>
    refine ⟨fr, ?_, by rintro ⟨⟩, fun _ => rfl⟩
    rw [stmt, code_discard known value, steps_append, steps_expr known storable value,
      Option.bind_some]
    cases t <;> rfl
  | @block body parts ih =>
    have row : ∀ cs : List Stmt, (∀ c ∈ cs, c ∈ body) → ∀ fr,
        ∃ fr', steps (s.context types) (fr :: outer) (cs.flatMap fun c => (s.stmt c).code) =
          some (fr' :: outer) ∧ Frame.After (∃ c ∈ cs, c.Returns) fr fr' := by
      intro cs within
      induction cs with
      | nil =>
        intro fr
        exact ⟨fr, rfl, by simp, fun _ => rfl⟩
      | cons c cs rest =>
        intro fr
        rw [List.forall_mem_cons] at within
        obtain ⟨mid, head, first⟩ := ih c within.1 fr
        obtain ⟨last, tail, second⟩ := rest within.2 mid
        refine ⟨last, ?_, by simpa using first.trans second⟩
        rw [List.flatMap_cons, steps_append, head, Option.bind_some, tail]
    obtain ⟨fr', run, after⟩ := row body (fun _ mem => mem) fr
    refine ⟨fr', by rw [stmt, code_stmts known parts, run], ?_, ?_⟩
    · rintro (_ | ⟨part, here⟩)
      exact after.left ⟨_, part, here⟩
    · intro no
      exact after.kept fun ⟨c, mem, here⟩ => no (.block mem here)

end Scope

/-! ## Types of slots -/

namespace Assembler

open Typing

variable {a : Assembler} {n : Numbering} {types functions : List FuncType}

/-- The type at the slot of a local is the type of the local. -/
theorem localTypes_slot (tidy : a.scope.decl.Tidy) {place : Place} {t : ValueType} {k : Nat}
    (declared : a.scope.decl.localType? place = some t)
    (slot : a.layout.slotOf? place = some k) (body : List (Instr Nat Nat)) :
    (Code.localTypes ⟨a.layout.localGroups, body⟩ a.scope.decl.funcType.params)[k]? =
      some t.held := by
  have size : a.scope.decl.funcType.params.length = a.scope.decl.params.length := by
    rw [tidy.params_funcType, List.length_map]
  rw [Code.localTypes, SlotLayout.flatMap_localGroups]
  refine (SlotLayout.getElem?_slot size slot).trans ?_
  cases place with
  | param i =>
    obtain ⟨q, at_i, rfl⟩ := Option.map_eq_some_iff.1 declared
    simp [tidy.params_funcType, at_i]
  | var i =>
    show a.scope.decl.locals[i]?.bind ValueType.valType? = _
    rw [show a.scope.decl.locals[i]? = some t from declared, Option.bind_some,
      ValueType.valType?_eq_some (tidy.storable (.var i) t declared)]

/-- What the linked body can refer to, by slots and indices. -/
def linkedContext (a : Assembler) (types functions : List FuncType) : Context Nat Nat :=
  ⟨((Code.localTypes ⟨a.layout.localGroups, []⟩ a.scope.decl.funcType.params).toArray[·]?),
    (functions[·]?), types, a.scope.decl.funcType.results⟩

/-- In a linked body, the names that the function knows refer to what they refer to in the tree. -/
theorem agree_of_knows (known : a.scope.program.get? a.scope.func = some a.scope.decl)
    (tidy : a.scope.decl.Tidy)
    (indexed : ∀ g d, a.scope.program.get? g = some d → functions[n.number g]? = some d.funcType)
    {i : SymbolicInstr} (mem : i ∈ a.code) (knows : a.scope.Knows i) :
    Agree (a.scope.context types) (a.linkedContext types functions) a.layout.slot n.number i := by
  constructor
  · intro l named
    obtain ⟨own, t, declared⟩ := knows.locals l named
    obtain ⟨k, slot⟩ := Option.isSome_iff_exists.1
      (slotOf?_isSome mem named declared (tidy.storable _ t declared))
    have owned : a.scope.program.localType? l = some t := by
      rw [Program.localType?, own, known, Option.bind_some, declared]
    rw [(Scope.localType?_context known tidy.storable types own owned).1, linkedContext]
    simpa [SlotLayout.slot, slot] using localTypes_slot tidy declared slot []
  · intro g named
    obtain ⟨d, callee⟩ := knows.callees g named
    exact (indexed g d callee).trans (congrArg (Option.map _) callee).symm

end Assembler

/-! ## The check of a body -/

namespace Scope

open Typing

variable {s : Scope} {types functions : List FuncType} {n : Numbering} {body : Stmt}

/-- The type at the slot of a local is the type of the local. -/
theorem localTypes_slot (tidy : s.decl.Tidy) {place : Place} {t : ValueType} {k : Nat}
    (declared : s.decl.localType? place = some t)
    (slot : (s.assembled body).layout.slotOf? place = some k) :
    ((s.code n body).localTypes s.decl.funcType.params)[k]? = some t.held :=
  Assembler.localTypes_slot (a := s.assembled body) tidy declared slot _

/-- What a linked body can refer to, by slots and indices. -/
def linkedContext (s : Scope) (n : Numbering) (body : Stmt) (types functions : List FuncType) :
    Context Nat Nat :=
  ⟨(((s.code n body).localTypes s.decl.funcType.params).toArray[·]?), (functions[·]?), types,
    s.decl.funcType.results⟩

/-- A linked body refers to what the tree refers to. -/
theorem agree_code (known : s.program.get? s.func = some s.decl) (tidy : s.decl.Tidy)
    (indexed : ∀ g d, s.program.get? g = some d → functions[n.number g]? = some d.funcType)
    {i : SymbolicInstr} (mem : i ∈ (s.stmt body).code) :
    Agree (s.context types) (s.linkedContext n body types functions)
      (s.assembled body).layout.slot n.number i :=
  Assembler.agree_of_knows (a := s.assembled body) known tidy indexed mem (within_stmt body i mem)

/-- A body that leaves nothing behind can end exactly when it contains a return or there is no
result. -/
theorem steps_close (ctx : Context Nat Nat) {results : List ValType} {returns : Prop} {fr : Frame}
    (after : Frame.After returns (.enter results [] results) fr) :
    steps ctx [fr] [.close] = some [] ↔ (results ≠ [] → returns) := by
  by_cases here : returns
  · have ended : fr.popAll fr.results = some fr := by
      rw [after.left here]
      exact Frame.popAll_leave ..
    have empty : fr.operands = [] := by
      rw [after.left here]
      rfl
    simp [steps, step, ended, empty, here]
  · rw [after.kept here]
    rcases List.eq_nil_or_concat results with rfl | ⟨rest, t, rfl⟩
    · simp [steps, step, Frame.enter, Frame.popAll]
    · simp [steps, step, Frame.enter, Frame.popAll, Frame.pop, here]

/-- The linked code of a body leaves the stack empty, or, if there is a return in it, makes what
follows unreachable. -/
theorem steps_linked (types : List FuncType) (known : s.program.get? s.func = some s.decl)
    (tidy : s.decl.Tidy)
    (indexed : ∀ g d, s.program.get? g = some d → functions[n.number g]? = some d.funcType)
    (typed : WellTyped s.program s.func body) :
    ∃ fr, steps (s.linkedContext n body types functions)
        [.enter s.decl.funcType.results [] s.decl.funcType.results]
        (Assembler.linked (s.assembled body).layout n (s.stmt body).code) = some [fr] ∧
      Frame.After body.Returns (.enter s.decl.funcType.results [] s.decl.funcType.results) fr := by
  have emitted : ∃ fr, steps (s.context types)
      [.enter s.decl.funcType.results [] s.decl.funcType.results] (s.stmt body).code = some [fr] ∧
      Frame.After body.Returns (.enter s.decl.funcType.results [] s.decl.funcType.results) fr :=
    steps_stmt known tidy.storable typed _ []
  obtain ⟨fr, run, after⟩ := emitted
  refine ⟨fr, ?_, after⟩
  rw [← run]
  exact steps_relabel (fun i mem => agree_code known tidy indexed mem) rfl rfl _

/-- A lowered body passes the check exactly when it has not too many locals and contains a return if
its function has a result. -/
theorem check_code (types : List FuncType) (known : s.program.get? s.func = some s.decl)
    (tidy : s.decl.Tidy)
    (indexed : ∀ g d, s.program.get? g = some d → functions[n.number g]? = some d.funcType)
    (typed : WellTyped s.program s.func body) :
    (s.code n body).check types functions s.decl.funcType = true ↔
      (s.code n body).localCount s.decl.funcType.params ≤ maxLocals ∧
        (s.decl.result ≠ .void → body.Returns) := by
  obtain ⟨fr, linked, after⟩ := steps_linked (n := n) types known tidy indexed typed
  have results : s.decl.funcType.results ≠ [] ↔ s.decl.result ≠ .void := by
    unfold Declaration.funcType
    cases s.decl.result <;> simp [ValueType.valType?]
  unfold Code.check
  split
  · rename_i few
    rw [and_iff_right few, beq_iff_eq, ← results,
      ← steps_close (s.linkedContext n body types functions) after]
    show steps (s.linkedContext n body types functions) _ (Assembler.linked _ n _ ++ [.close]) =
      some [] ↔ _
    rw [steps_append, linked, Option.bind_some]
  · rename_i many
    simp [many]

end Scope

end WasmForge

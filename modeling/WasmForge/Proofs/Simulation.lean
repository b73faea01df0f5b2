import Mathlib
import WasmForge.Machine.Instance
import WasmForge.Program.Eval
import WasmForge.Proofs.Runs
import WasmForge.Proofs.StackTyping

/-!
# Lowered code computes what the program means

The machine on the code of a tree and the evaluation of the tree go together: with the locals in
their slots, the code of an expression pushes the value of the expression, and the code of a
statement changes the slots as the statement changes the locals, or returns what it returns.

* `Mirrors`: the slots hold the values of the locals.
* `Scope.follows_expr`, `Scope.follows_stmt`: one tree.
* `Scope.follows_body`: a whole body.
* `Serves.follows_call`: calls, to any depth.
-/

namespace WasmForge

variable {σ : Type} {short : Prop}

/-! ## Values -/

/-- The result of a call, as the machine has it. -/
def Value.results (v : Option Scalar) : List Value := v.toList.map .ofScalar

/-- Is this a result of the type?  The void type has none. -/
def ValueType.Holds (t : ValueType) (v : Option Scalar) : Prop :=
  v.map (fun x => (Value.ofScalar x).type) = t.valType?

theorem ValueType.Holds.length_results {t : ValueType} {v : Option Scalar} (holds : t.Holds v) :
    (Value.results v).length = t.valType?.toList.length := by
  rw [← holds]
  cases v <;> rfl

/-- A value of a parameter or local is a scalar. -/
theorem ValueType.Holds.of_storable {t : ValueType} {v : Option Scalar} (holds : t.Holds v)
    (storable : t.isStorable = true) : ∃ x, v = some x ∧ (Value.ofScalar x).type = t.held := by
  rw [Holds, valType?_eq_some storable] at holds
  exact Option.map_eq_some_iff.1 holds

theorem ValueType.holds_some {t : ValueType} {x : Scalar} (storable : t.isStorable = true)
    (type : (Value.ofScalar x).type = t.held) : t.Holds (some x) := by
  rw [Holds, valType?_eq_some storable, Option.map_some, type]

/-- Arithmetic on two values of one type: what the evaluation gives is what the instruction
pushes. -/
theorem ValueType.Holds.arith [SingleArith] {t : ValueType} {v w : Option Scalar} (op : Arith)
    (value : t ≠ .void) (hv : t.Holds v) (hw : t.Holds w) :
    ∃ x, Eval.arith op v w = .ok x ∧ t.Holds (some x) ∧
      ∀ (callee : Nat → Option (Machine.Callee σ)) (a : Activation) (slot : Local → Nat)
        (number : FuncRef → Nat),
        Machine.runOp callee ((a.pushAll (Value.results v)).pushAll (Value.results w))
            ((Scope.arithOp op t).relabel slot number) =
          pure (.next (a.pushAll (Value.results (some x)))) := by
  cases t with
  | void => exact absurd rfl value
  | int32 =>
    obtain ⟨x, rfl, hx⟩ := hv.of_storable rfl
    obtain ⟨y, rfl, hy⟩ := hw.of_storable rfl
    cases x <;> cases hx
    cases y <;> cases hy
    exact ⟨_, rfl, rfl, fun _ _ _ _ => rfl⟩
  | float32 =>
    obtain ⟨x, rfl, hx⟩ := hv.of_storable rfl
    obtain ⟨y, rfl, hy⟩ := hw.of_storable rfl
    cases x <;> cases hx
    cases y <;> cases hy
    exact ⟨_, rfl, rfl, fun _ _ _ _ => rfl⟩

namespace Activation

theorem pushAll_append (a : Activation) (vs ws : List Value) :
    a.pushAll (vs ++ ws) = (a.pushAll vs).pushAll ws := by
  simp [pushAll]

/-- What was pushed can be popped. -/
theorem popAll_pushAll (a : Activation) (vs : List Value) :
    (a.pushAll vs).popAll vs.length = some (vs, a) := by
  simp [popAll, pushAll]

end Activation

/-! ## Locals -/

/-- Every local has a value of its type, and the slots hold the values. -/
def Mirrors (d : Declaration) (layout : SlotLayout) (store : Eval.Store) (locals : List Value) :
    Prop :=
  ∀ place t, d.localType? place = some t →
    ∃ x, store.get? place = some x ∧ (Value.ofScalar x).type = t.held ∧
      ∀ k, layout.slotOf? place = some k → locals[k]? = some (.ofScalar x)

theorem Eval.Store.get?_set_same {s : Store} {place : Place} {x y : Scalar}
    (held : s.get? place = some y) : (s.set x place).get? place = some x := by
  cases place <;>
  · obtain ⟨lt, -⟩ := List.getElem?_eq_some_iff.1 held
    simp [get?, set, lt]

theorem Eval.Store.get?_set_other {s : Store} {place other : Place} {x : Scalar}
    (ne : place ≠ other) : (s.set x place).get? other = s.get? other := by
  cases place <;> cases other <;> simp_all [get?, set, List.getElem?_set_ne]

/-- A local and its slot are changed together. -/
theorem Mirrors.set {d : Declaration} {count : Nat} {declared : List ValueType}
    {touched : Nat → Bool} {store : Eval.Store} {locals : List Value}
    (mirrors : Mirrors d (.of count declared touched) store locals) {place : Place} {t : ValueType}
    {x : Scalar} {k : Nat} (known : d.localType? place = some t)
    (type : (Value.ofScalar x).type = t.held)
    (slot : (SlotLayout.of count declared touched).slotOf? place = some k) :
    Mirrors d (.of count declared touched) (store.set x place) (locals.set k (.ofScalar x)) := by
  obtain ⟨old, held, -, filled⟩ := mirrors place t known
  obtain ⟨lt, -⟩ := List.getElem?_eq_some_iff.1 (filled k slot)
  intro other u knownOther
  by_cases same : place = other
  · subst same
    obtain rfl := Option.some.inj (known.symm.trans knownOther)
    refine ⟨x, Eval.Store.get?_set_same held, type, ?_⟩
    intro j at_j
    obtain rfl := Option.some.inj (slot.symm.trans at_j)
    rw [List.getElem?_set_self lt]
  · obtain ⟨y, heldOther, typeOther, filledOther⟩ := mirrors other u knownOther
    refine ⟨y, (Eval.Store.get?_set_other same).trans heldOther, typeOther, ?_⟩
    intro j at_j
    have apart : k ≠ j := by
      rintro rfl
      exact same (SlotLayout.slotOf?_inj slot at_j)
    rw [List.getElem?_set_ne apart, filledOther j at_j]

/-! ## Stretches of code -/

/-- Executes a stretch of code without constructs, with slots and indices in place of handles. -/
def Machine.exec [SingleArith] (callee : Nat → Option (Callee σ)) (layout : SlotLayout)
    (n : Numbering) (code : List SymbolicInstr) (a : Activation) : Run σ Exit :=
  runAll callee (Node.ofStraight (Assembler.linked layout n code)) a

/-- Every local in the code has a slot. -/
def SlotLayout.Covers (layout : SlotLayout) (code : List SymbolicInstr) : Prop :=
  ∀ i ∈ code, ∀ l ∈ i.local?, (layout.slotOf? l.place).isSome = true

theorem SlotLayout.covers_append {layout : SlotLayout} {first rest : List SymbolicInstr} :
    layout.Covers (first ++ rest) ↔ layout.Covers first ∧ layout.Covers rest :=
  List.forall_mem_append

namespace Machine

variable [SingleArith] {callee : Nat → Option (Callee σ)} {layout : SlotLayout} {n : Numbering}

theorem exec_nil (a : Activation) : exec callee layout n [] a = pure (.next a) := by
  show runAll callee [] a = _
  rw [runAll]

theorem exec_op (o : Op Local FuncRef) (a : Activation) :
    exec callee layout n [.op o] a = runOp callee a (o.relabel layout.slot n.number) := by
  show runAll callee [.op (o.relabel layout.slot n.number)] a = _
  rw [runAll, run]
  refine (congrArg _ (funext fun exit => ?_)).trans (bind_pure _)
  cases exit with
  | next a =>
    show exec callee layout n [] a = _
    rw [exec_nil]
  | branch label a => rfl
  | ret a => rfl

theorem exec_append (first rest : List SymbolicInstr) (a : Activation) :
    exec callee layout n (first ++ rest) a = do
      match ← exec callee layout n first a with
      | .next a => exec callee layout n rest a
      | exit => return exit := by
  have split : Node.ofStraight (Assembler.linked layout n (first ++ rest)) =
      Node.ofStraight (Assembler.linked layout n first) ++
        Node.ofStraight (Assembler.linked layout n rest) := by
    rw [Assembler.linked, List.map_append]
    exact List.filterMap_append
  unfold exec
  rw [split]
  exact runAll_append callee _ _ a

theorem exec_append_of_next {first rest : List SymbolicInstr} {a b : Activation}
    (head : exec callee layout n first a = pure (.next b)) :
    exec callee layout n (first ++ rest) a = exec callee layout n rest b := by
  rw [exec_append, head, pure_bind]

/-- A stretch of code that goes on to its end, and what follows it. -/
theorem follows_append {β δ : Type} {first rest : List SymbolicInstr} {a : Activation}
    {e : Run σ β} {k : β → Run σ δ} {P : β → Prop} {next : β → Activation} {S : Exit → δ → Prop}
    (head : Follows short (fun exit b => exit = .next (next b) ∧ P b)
      (exec callee layout n first a) e)
    (tail : ∀ b, P b → Follows short S (exec callee layout n rest (next b)) (k b)) :
    Follows short S (exec callee layout n (first ++ rest) a) (e >>= k) := by
  rw [exec_append]
  refine head.bind ?_
  rintro _ b ⟨rfl, holds⟩
  exact tail b holds

theorem exec_localGet {l : Local} {a : Activation} {k : Nat} {v : Value}
    (slot : layout.slotOf? l.place = some k) (filled : a.locals[k]? = some v) :
    exec callee layout n [.op (.localGet l)] a = pure (.next (a.pushAll [v])) := by
  have at_slot : a.locals[layout.slot l]? = some v := by
    rw [SlotLayout.slot, slot]
    exact filled
  rw [exec_op, Op.relabel_localGet, runOp, at_slot]
  rfl

theorem exec_localSet {l : Local} {a : Activation} {k : Nat} (v : Value)
    (slot : layout.slotOf? l.place = some k) :
    exec callee layout n [.op (.localSet l)] (a.pushAll [v]) =
      pure (.next { a with locals := a.locals.set k v }) := by
  rw [exec_op, Op.relabel_localSet, SlotLayout.slot, slot]
  rfl

theorem exec_call {g : FuncRef} {c : Callee σ} (index : callee (n.number g) = some c)
    (a : Activation) {vs : List Value} (arity : c.arity = vs.length) :
    exec callee layout n [.op (.call g)] (a.pushAll vs) = do
      let results ← c.enter vs
      return .next (a.pushAll results) := by
  have popped : (a.pushAll vs).popAll c.arity = some (vs, a) := by
    rw [arity, Activation.popAll_pushAll]
  rw [exec_op, Op.relabel_call, runOp, index]
  dsimp only
  rw [popped]

end Machine

/-- A call of the machine gives the results that a call of the program gives. -/
def Gives (t : ValueType) (vs : List Value) (v : Option Scalar) : Prop :=
  vs = Value.results v ∧ t.Holds v

/-- The scalars are arguments for a function. -/
def Declaration.Takes (d : Declaration) (args : List Scalar) : Prop :=
  (args.map Value.ofScalar).map Value.type = d.funcType.params

/-- The calls of the machine follow the calls of the program. -/
def CallsFollow (short : Prop) (p : Program) (n : Numbering)
    (callee : Nat → Option (Machine.Callee σ))
    (call : FuncRef → List Scalar → Run σ (Option Scalar)) : Prop :=
  ∀ g d, p.get? g = some d →
    ∃ c, callee (n.number g) = some c ∧ c.arity = d.funcType.params.length ∧
      ∀ args, d.Takes args →
        Follows short (Gives d.result) (c.enter (args.map .ofScalar)) (call g args)

namespace Scope

open Machine

variable [arith : SingleArith] {s : Scope} {n : Numbering} {layout : SlotLayout}
  {callee : Nat → Option (Machine.Callee σ)} {call : FuncRef → List Scalar → Run σ (Option Scalar)}
  (known : s.program.get? s.func = some s.decl) (tidy : s.program.Tidy)
  (calls : CallsFollow short s.program n callee call)

/-! ## Expressions -/

omit arith in
include known in
/-- A local of the function has a value of its type, which its slot holds. -/
theorem value_local {l : Local} {t : ValueType} {store : Eval.Store} {locals : List Value}
    (own : l.owner = s.func) (declared : s.program.localType? l = some t)
    (slotted : (layout.slotOf? l.place).isSome = true)
    (mirrors : Mirrors s.decl layout store locals) :
    s.decl.localType? l.place = some t ∧ ∃ x k, store.get? l.place = some x ∧
      (Value.ofScalar x).type = t.held ∧ layout.slotOf? l.place = some k ∧
      locals[k]? = some (.ofScalar x) := by
  rw [Program.localType?, own, known, Option.bind_some] at declared
  obtain ⟨k, slot⟩ := Option.isSome_iff_exists.1 slotted
  obtain ⟨x, held, type, filled⟩ := mirrors l.place t declared
  exact ⟨declared, x, k, held, type, slot, filled k slot⟩

include known tidy calls

set_option linter.unusedSectionVars false in
mutual

/-- The code of an expression pushes the value of the expression. -/
theorem follows_expr {e : Expr} {t : ValueType} {store : Eval.Store}
    (typed : HasType s.program s.func e t) (covers : layout.Covers (s.expr e).code) (a : Activation)
    (mirrors : Mirrors s.decl layout store a.locals) :
    Follows short (fun exit v => exit = .next (a.pushAll (Value.results v)) ∧ t.Holds v)
      (exec callee layout n (s.expr e).code a) (Eval.expr call store e) := by
  match typed with
  | .int v =>
    show Follows _ _ (exec callee layout n [.op (.i32Const v)] a) _
    rw [exec_op, Eval.expr]
    exact .pure ⟨rfl, rfl⟩
  | .float v =>
    show Follows _ _ (exec callee layout n [.op (.f32Const v)] a) _
    rw [exec_op, Eval.expr]
    exact .pure ⟨rfl, rfl⟩
  | .var (l := l) own declared =>
    rw [code_expr_var known own declared] at covers ⊢
    obtain ⟨place, x, k, held, type, slot, filled⟩ := value_local known own declared
      (covers _ List.mem_cons_self l rfl) mirrors
    have storable := (tidy.decls _ _ known).storable l.place t place
    rw [exec_localGet slot filled, Eval.expr, held]
    exact .pure ⟨rfl, ValueType.holds_some storable type⟩
  | .arith value hl hr =>
    rename_i op _ _
    rw [code_expr_arith known value hl hr, List.append_assoc] at covers ⊢
    rw [SlotLayout.covers_append, SlotLayout.covers_append] at covers
    rw [Eval.expr]
    refine follows_append (follows_expr hl covers.1 a mirrors) ?_
    intro v hv
    refine follows_append (follows_expr hr covers.2.1 _ mirrors) ?_
    intro w hw
    obtain ⟨x, sum, holds, pushed⟩ := hv.arith op value hw
    rw [exec_op, pushed, sum]
    exact .pure ⟨rfl, holds⟩
  | .call (d := d) found arguments =>
    rw [code_expr_call known found arguments] at covers ⊢
    rw [SlotLayout.covers_append] at covers
    rw [Eval.expr]
    have storable : ∀ t ∈ d.params.map (·.type), t.isStorable = true := by
      simpa using (tidy.decls _ d found).params
    refine follows_append (follows_arguments arguments storable covers.1 a mirrors) ?_
    intro args types
    obtain ⟨c, index, arity, follows⟩ := calls _ d found
    have takes : d.Takes args := types.trans List.filterMap_map
    rw [exec_call index a (by rw [arity, ← takes, List.length_map]), ← bind_pure (call _ args)]
    refine (follows args takes).bind ?_
    rintro _ v ⟨rfl, holds⟩
    exact .pure ⟨rfl, holds⟩

/-- The code of arguments pushes their values. -/
theorem follows_arguments {es : List Expr} {ts : List ValueType} {store : Eval.Store}
    (typed : HaveTypes s.program s.func es ts) (storable : ∀ t ∈ ts, t.isStorable = true)
    (covers : layout.Covers (es.flatMap fun e => (s.expr e).code)) (a : Activation)
    (mirrors : Mirrors s.decl layout store a.locals) :
    Follows short (fun exit args => exit = .next (a.pushAll (args.map .ofScalar)) ∧
        (args.map Value.ofScalar).map Value.type = ts.filterMap ValueType.valType?)
      (exec callee layout n (es.flatMap fun e => (s.expr e).code) a)
      (Eval.exprs call store es) := by
  match typed with
  | .nil =>
    rw [Eval.exprs]
    rw [List.flatMap_nil, exec_nil]
    exact .pure ⟨rfl, rfl⟩
  | .cons (t := t) head tail =>
    rw [List.flatMap_cons] at covers ⊢
    rw [SlotLayout.covers_append] at covers
    rw [List.forall_mem_cons] at storable
    rw [Eval.exprs]
    refine follows_append (follows_expr head covers.1 a mirrors) ?_
    intro v holds
    obtain ⟨x, rfl, type⟩ := holds.of_storable storable.1
    rw [← bind_pure (exec callee layout n _ _), Eval.value, pure_bind]
    refine (follows_arguments tail storable.2 covers.2 (a.pushAll [.ofScalar x]) mirrors).bind ?_
    rintro _ args ⟨rfl, types⟩
    refine .pure ⟨?_, ?_⟩
    · exact congrArg Exit.next (Activation.pushAll_append a [.ofScalar x] _).symm
    · rw [List.map_cons, List.map_cons, types, type,
        List.filterMap_cons_some (ValueType.valType?_eq_some storable.1)]

end

/-! ## Statements -/

omit known tidy calls

/-- How the code of a statement ends when the statement ends so: with the locals in their slots and
the stack as before, or with the result on top of it.  A statement that contains a return does not
end in any other way. -/
inductive EndsWith (s : Scope) (layout : SlotLayout) (stack : List Value) (returns : Prop) :
    Exit → Eval.Flow → Prop where
  /-- At its end. -/
  | next {locals : List Value} {store : Eval.Store} (mirrors : Mirrors s.decl layout store locals)
      (goesOn : ¬returns) : EndsWith s layout stack returns (.next ⟨locals, stack⟩) (.next store)
  /-- With a return. -/
  | ret {locals : List Value} {v : Option Scalar} (holds : s.decl.result.Holds v) :
      EndsWith s layout stack returns
        (.ret ((⟨locals, stack⟩ : Activation).pushAll (Value.results v))) (.ret v)

omit arith in
theorem EndsWith.mono {returns here : Prop} {stack : List Value} {exit : Exit} {flow : Eval.Flow}
    (ends : s.EndsWith layout stack returns exit flow) (stronger : here → returns) :
    s.EndsWith layout stack here exit flow := by
  cases ends with
  | next mirrors goesOn => exact .next mirrors fun holds => goesOn (stronger holds)
  | ret holds => exact .ret holds

/-- Statements that follow are followed one after the other, up to the first return. -/
theorem follows_row {cs : List Stmt}
    (each : ∀ c ∈ cs, ∀ {store : Eval.Store} {a : Activation}, layout.Covers (s.stmt c).code →
      Mirrors s.decl layout store a.locals →
      Follows short (s.EndsWith layout a.stack c.Returns) (exec callee layout n (s.stmt c).code a)
        (Eval.stmt call c store))
    {store : Eval.Store} {a : Activation}
    (covers : layout.Covers (cs.flatMap fun c => (s.stmt c).code))
    (mirrors : Mirrors s.decl layout store a.locals) :
    Follows short (s.EndsWith layout a.stack (∃ c ∈ cs, c.Returns))
      (exec callee layout n (cs.flatMap fun c => (s.stmt c).code) a)
      (Eval.stmts call cs store) := by
  induction cs generalizing store a with
  | nil =>
    rw [List.flatMap_nil, exec_nil, Eval.stmts]
    exact .pure (.next mirrors (by simp))
  | cons c cs rest =>
    rw [List.forall_mem_cons] at each
    rw [List.flatMap_cons] at covers ⊢
    rw [SlotLayout.covers_append] at covers
    rw [exec_append, Eval.stmts]
    refine (each.1 covers.1 mirrors).bind ?_
    rintro _ _ (⟨mirrors, goesOn⟩ | ⟨holds⟩)
    · refine (rest each.2 covers.2 mirrors).mono fun _ _ ends => ends.mono ?_
      rintro ⟨d, mem, here⟩
      rcases List.mem_cons.1 mem with rfl | mem
      · exact absurd here goesOn
      · exact ⟨d, mem, here⟩
    · exact .pure (.ret holds)

variable {count : Nat} {declared : List ValueType} {touched : Nat → Bool}

include known tidy calls

theorem follows_assign {l : Local} {e : Expr} {t : ValueType} (own : l.owner = s.func)
    (has : s.program.localType? l = some t) (value : HasType s.program s.func e t)
    {store : Eval.Store} {a : Activation}
    (covers : (SlotLayout.of count declared touched).Covers (s.assign l e).code)
    (mirrors : Mirrors s.decl (.of count declared touched) store a.locals) :
    Follows short (s.EndsWith (.of count declared touched) a.stack (Stmt.assign l e).Returns)
      (exec callee (.of count declared touched) n (s.assign l e).code a)
      (Eval.stmt call (.assign l e) store) := by
  rw [code_assign known own has value] at covers ⊢
  rw [SlotLayout.covers_append] at covers
  obtain ⟨place, -, k, -, -, slot, -⟩ := value_local known own has
    (covers.2 _ List.mem_cons_self l rfl) mirrors
  rw [Eval.stmt]
  refine follows_append (follows_expr known tidy calls value covers.1 a mirrors) ?_
  intro v holds
  obtain ⟨x, rfl, type⟩ := holds.of_storable ((tidy.decls _ _ known).storable l.place t place)
  rw [Value.results, Option.toList_some, List.map_singleton, exec_localSet _ slot, Eval.value,
    pure_bind]
  exact .pure (.next (mirrors.set place type slot) (by rintro ⟨⟩))

omit tidy calls in
theorem follows_increment {l : Local} {t : ValueType} (own : l.owner = s.func)
    (has : s.program.localType? l = some t) (value : t ≠ .void)
    {store : Eval.Store} {a : Activation}
    (covers : (SlotLayout.of count declared touched).Covers (s.increment l).code)
    (mirrors : Mirrors s.decl (.of count declared touched) store a.locals) :
    Follows short (s.EndsWith (.of count declared touched) a.stack (Stmt.increment l).Returns)
      (exec callee (.of count declared touched) n (s.increment l).code a)
      (Eval.stmt call (.increment l) store) := by
  rw [code_increment known own has value] at covers ⊢
  obtain ⟨place, x, k, held, type, slot, filled⟩ := value_local known own has
    (covers _ List.mem_cons_self l rfl) mirrors
  have sum : (Value.ofScalar (Eval.succ x)).type = t.held ∧
      exec callee (.of count declared touched) n [.op (oneOp t), .op (arithOp .add t)]
        (a.pushAll [.ofScalar x]) = pure (.next (a.pushAll [.ofScalar (Eval.succ x)])) := by
    cases t with
    | void => exact absurd rfl value
    | int32 =>
      cases x <;> cases type
      exact ⟨rfl, rfl⟩
    | float32 =>
      cases x <;> cases type
      exact ⟨rfl, rfl⟩
  show Follows _ _ (exec callee (.of count declared touched) n ([.op (.localGet l)] ++
    ([.op (oneOp t), .op (arithOp .add t)] ++ [.op (.localSet l)])) a) _
  rw [exec_append_of_next (exec_localGet slot filled), exec_append_of_next sum.2,
    exec_localSet _ slot, Eval.stmt, held, Eval.value, pure_bind]
  exact .pure (.next (mirrors.set place sum.1 slot) (by rintro ⟨⟩))

theorem follows_ret {e : Expr} (value : HasType s.program s.func e s.decl.result)
    {store : Eval.Store} {a : Activation} (covers : layout.Covers (s.ret e).code)
    (mirrors : Mirrors s.decl layout store a.locals) :
    Follows short (s.EndsWith layout a.stack (Stmt.ret e).Returns)
      (exec callee layout n (s.ret e).code a) (Eval.stmt call (.ret e) store) := by
  rw [code_ret known value] at covers ⊢
  rw [SlotLayout.covers_append] at covers
  rw [Eval.stmt]
  refine follows_append (follows_expr known tidy calls value covers.1 a mirrors) ?_
  intro v holds
  rw [exec_op]
  exact .pure (.ret holds)

theorem follows_discard {e : Expr} {t : ValueType} (value : HasType s.program s.func e t)
    {store : Eval.Store} {a : Activation} (covers : layout.Covers (s.discard e).code)
    (mirrors : Mirrors s.decl layout store a.locals) :
    Follows short (s.EndsWith layout a.stack (Stmt.expr e).Returns)
      (exec callee layout n (s.discard e).code a) (Eval.stmt call (.expr e) store) := by
  rw [code_discard known value] at covers ⊢
  rw [SlotLayout.covers_append] at covers
  rw [Eval.stmt]
  refine follows_append (follows_expr known tidy calls value covers.1 a mirrors) ?_
  intro v holds
  have dropped : exec callee layout n (if t = .void then [] else [.op .drop])
      (a.pushAll (Value.results v)) = pure (.next a) := by
    cases t with
    | void =>
      obtain rfl : v = none := Option.map_eq_none_iff.1 holds
      rfl
    | int32 =>
      obtain ⟨x, rfl, -⟩ := holds.of_storable rfl
      rfl
    | float32 =>
      obtain ⟨x, rfl, -⟩ := holds.of_storable rfl
      rfl
  rw [dropped]
  exact .pure (.next mirrors (by rintro ⟨⟩))

/-- The code of a statement does to the slots what the statement does to the locals. -/
theorem follows_stmt {c : Stmt} (typed : WellTyped s.program s.func c) {store : Eval.Store}
    {a : Activation} (covers : (SlotLayout.of count declared touched).Covers (s.stmt c).code)
    (mirrors : Mirrors s.decl (.of count declared touched) store a.locals) :
    Follows short (s.EndsWith (.of count declared touched) a.stack c.Returns)
      (exec callee (.of count declared touched) n (s.stmt c).code a) (Eval.stmt call c store) := by
  induction typed generalizing store a with
  | assign own has value => exact follows_assign known tidy calls own has value covers mirrors
  | increment own has value => exact follows_increment known own has value covers mirrors
  | ret has value =>
    obtain rfl := Option.some.inj (known.symm.trans has)
    exact follows_ret known tidy calls value covers mirrors
  | expr value => exact follows_discard known tidy calls value covers mirrors
  | @block body parts ih =>
    rw [stmt, code_stmts known parts] at covers ⊢
    rw [Eval.stmt]
    refine (follows_row ih covers mirrors).mono fun _ _ ends => ends.mono ?_
    rintro (_ | ⟨part, here⟩)
    exact ⟨_, part, here⟩

/-! ## Bodies -/

omit arith known tidy calls

theorem ofScalar_zero {t : ValueType} (storable : t.isStorable = true) :
    Value.zero t.held = .ofScalar (Eval.zero t) := by
  cases t with
  | void => cases storable
  | int32 => rfl
  | float32 => rfl

/-- The structured form of the body of the function. -/
def nodes (s : Scope) (n : Numbering) (body : Stmt) : List Node :=
  Node.ofStraight (Assembler.linked (s.assembled body).layout n (s.stmt body).code)

/-- The function, ready to run with calls that take `cells` cells. -/
def ready (s : Scope) (n : Numbering) (body : Stmt) (cells : Nat) : DefinedFunction :=
  ⟨s.decl.funcType, (s.code n body).localTypes [], s.nodes n body, cells⟩

/-- A lowered body has no constructs. -/
theorem ofBody?_code (s : Scope) (n : Numbering) (body : Stmt) (types : List FuncType) :
    Node.ofBody? types (s.code n body).body = some (s.nodes n body) := by
  refine Node.ofBody?_straight types ?_
  intro i mem
  obtain ⟨j, here, rfl⟩ := List.mem_map.1 mem
  obtain ⟨o, rfl, -⟩ := (within_stmt body j here).straight
  exact ⟨_, rfl⟩

/-- A call starts with its arguments and zeros in the slots. -/
theorem mirrors_start (body : Stmt) (tidy : s.decl.Tidy) {args : List Scalar}
    (takes : s.decl.Takes args) :
    Mirrors s.decl (s.assembled body).layout ⟨args, s.decl.locals.map Eval.zero⟩
      (args.map .ofScalar ++ ((s.code n body).localTypes []).map .zero) := by
  have typesOf : (args.map Value.ofScalar).map Value.type = s.decl.params.map (·.type.held) :=
    takes.trans tidy.params_funcType
  have size : args.length = s.decl.params.length := by
    simpa using congrArg List.length typesOf
  intro place t declared
  cases place with
  | param i =>
    obtain ⟨q, at_i, rfl⟩ := Option.map_eq_some_iff.1 declared
    have lt : i < args.length := size ▸ (List.getElem?_eq_some_iff.1 at_i).1
    have type := congrArg (·[i]?) typesOf
    rw [List.getElem?_map, List.getElem?_map, List.getElem?_map, at_i,
      List.getElem?_eq_getElem lt] at type
    refine ⟨args[i], List.getElem?_eq_getElem lt, Option.some.inj type, ?_⟩
    intro k slot
    obtain ⟨rfl, -⟩ := SlotLayout.slotOf?_param_eq_some.1 slot
    rw [List.getElem?_append_left (by rwa [List.length_map]), List.getElem?_map,
      List.getElem?_eq_getElem lt, Option.map_some]
  | var i =>
    have storable := tidy.storable (.var i) t declared
    refine ⟨Eval.zero t, ?_, ?_, ?_⟩
    · show (s.decl.locals.map Eval.zero)[i]? = _
      rw [List.getElem?_map, show s.decl.locals[i]? = some t from declared, Option.map_some]
    · rw [← ofScalar_zero storable, Value.type_zero]
    · intro k slot
      have after : args.length ≤ k := by
        rcases SlotLayout.slotOf?_var_eq_some slot with ⟨j, -, rfl⟩ | ⟨j, -, rfl⟩ <;>
        · simp only [assembled]
          omega
      have type := localTypes_slot (n := n) tidy declared slot
      have same : s.decl.funcType.params.length = args.length := by
        rw [← takes, List.length_map, List.length_map]
      rw [Code.localTypes, List.getElem?_append_right (same ▸ after), same] at type
      rw [List.getElem?_append_right (by rwa [List.length_map]), List.length_map, Code.localTypes,
        List.nil_append, List.getElem?_map, type, Option.map_some, ofScalar_zero storable]

include arith known tidy calls

/-- A call of a body gives what its evaluation gives. -/
theorem follows_body {body : Stmt} (typed : WellTyped s.program s.func body)
    (returns : s.decl.result ≠ .void → body.Returns) {args : List Scalar}
    (takes : s.decl.Takes args) :
    Follows short (Gives s.decl.result)
      (runBody callee s.decl.funcType.results.length (s.nodes n body)
        (args.map .ofScalar ++ ((s.code n body).localTypes []).map .zero))
      (Eval.callBody call s.decl body args) := by
  have tidyHere := tidy.decls _ _ known
  have covers : (s.assembled body).layout.Covers (s.stmt body).code := by
    intro i mem l named
    obtain ⟨-, t, declared⟩ := (within_stmt body i mem).locals l named
    exact Assembler.slotOf?_isSome (a := s.assembled body) mem named declared
      (tidyHere.storable _ t declared)
  refine (follows_stmt known tidy calls typed covers
    (a := ⟨_, []⟩) (mirrors_start body tidyHere takes)).bind ?_
  rintro _ _ (⟨mirrors, goesOn⟩ | ⟨holds⟩)
  · have void : s.decl.result = .void := by
      by_contra value
      exact goesOn (returns value)
    rw [Declaration.funcType, void]
    exact .pure ⟨rfl, rfl⟩
  · rename_i locals v
    have count : s.decl.funcType.results.length = (Value.results v).length :=
      holds.length_results.symm
    dsimp only
    rw [count, Activation.popAll_pushAll]
    exact .pure ⟨rfl, holds⟩

end Scope

/-! ## Calls -/

/-- The functions are those of the program by their numbers: the host's for its imports, and the
linked bodies of the others, whatever number of cells they take. -/
structure Serves (p : Program) (n : Numbering) (host : Host σ) (fs : List (LinkedFunction σ)) :
    Prop where
  /-- Imports are bound to the host by name. -/
  imports : ∀ g d, p.get? g = some d → d.isImport = true →
    ∃ run, host.find? d.name = some run ∧ fs[n.number g]? = some (.host d.name d.funcType run)
  /-- The others have bodies. -/
  bodies : ∀ g d, p.get? g = some d → d.isImport = false →
    ∃ body cells, d.body = some body ∧ WellTyped p g body ∧ (d.result ≠ .void → body.Returns) ∧
      fs[n.number g]? = some (.defined ((⟨p, g, d⟩ : Scope).ready n body cells))

/-- The host sees scalars as they are. -/
theorem Value.mapM_scalar?_ofScalar (args : List Scalar) :
    (args.map ofScalar).mapM scalar? = some args := by
  induction args with
  | nil => rfl
  | cons x args ih => rw [List.map_cons, List.mapM_cons, ih, scalar?_ofScalar]; rfl

theorem follows_callHost {d : Declaration} {host : Host σ} {run : HostFunction σ}
    (found : host.find? d.name = some run) (args : List Scalar) :
    Follows short (Gives d.result) (callHost d.name d.funcType run (args.map .ofScalar))
      (Eval.callImport d host args) := by
  have asked : Follows short Eq (liftM (run args) : Run σ (Option Scalar)) (liftM (run args)) :=
    fun _ => .value rfl
  rw [callHost, Value.mapM_scalar?_ofScalar, Eval.callImport, found]
  refine asked.bind ?_
  rintro given _ rfl
  rw [Declaration.funcType]
  cases d.result with
  | void =>
    cases given with
    | none => exact .pure ⟨rfl, rfl⟩
    | some x => exact .throw (.unexpectedAnswer d.name)
  | int32 =>
    cases given with
    | none => exact .throw (.missingAnswer d.name)
    | some x => exact .pure ⟨rfl, rfl⟩
  | float32 =>
    cases given with
    | none => exact .throw (.missingAnswer d.name)
    | some x => exact .pure ⟨rfl, rfl⟩

namespace Program

variable [SingleArith] {p : Program} {host : Host σ} {g : FuncRef} {d : Declaration}

theorem evaluate_import (known : p.get? g = some d) (imported : d.isImport = true) (depth : Nat)
    (args : List Scalar) : p.evaluate host depth g args = Eval.callImport d host args := by
  cases depth <;> simp [evaluate, known, imported]

theorem evaluate_zero (known : p.get? g = some d) (defined : d.isImport = false)
    (args : List Scalar) : p.evaluate host 0 g args = throw .callDepth := by
  simp [evaluate, known, defined]

theorem evaluate_succ (known : p.get? g = some d) (defined : d.isImport = false) {body : Stmt}
    (has : d.body = some body) (depth : Nat) (args : List Scalar) :
    p.evaluate host (depth + 1) g args = Eval.callBody (p.evaluate host depth) d body args := by
  simp [evaluate, known, defined, has]

end Program

/-- There is room for `depth` calls inside each other and one of the host. -/
def LinkedFunction.Roomy (fs : List (LinkedFunction σ)) (depth cells : Nat) : Prop :=
  ∃ most, (∀ f ∈ fs, f.cells ≤ most) ∧ (depth + 1) * most ≤ cells

theorem LinkedFunction.Roomy.cells_le {fs : List (LinkedFunction σ)} {depth cells : Nat}
    (room : Roomy fs depth cells) {f : LinkedFunction σ} (mem : f ∈ fs) : f.cells ≤ cells := by
  obtain ⟨most, bound, enough⟩ := room
  calc f.cells ≤ most := bound f mem
    _ ≤ (depth + 1) * most := Nat.le_mul_of_pos_left most depth.succ_pos
    _ ≤ cells := enough

/-- After a call, there is room for the calls inside it. -/
theorem LinkedFunction.Roomy.inside {fs : List (LinkedFunction σ)} {depth cells : Nat}
    (room : Roomy fs (depth + 1) cells) {f : LinkedFunction σ} (mem : f ∈ fs) :
    Roomy fs depth (cells - f.cells) := by
  obtain ⟨most, bound, enough⟩ := room
  refine ⟨most, bound, ?_⟩
  have here := bound f mem
  rw [Nat.succ_mul] at enough
  omega

/-- With room enough, the number of cells is no reason to trap. -/
theorem LinkedFunction.Roomy.follows_ite {α β : Type} {fs : List (LinkedFunction σ)}
    {depth cells : Nat} (room : ¬short → Roomy fs depth cells) {f : LinkedFunction σ} (mem : f ∈ fs)
    {R : α → β → Prop} {m : Run σ α} {e : Run σ β} (follows : Follows short R m e) :
    Follows short R (if f.cells ≤ cells then m else throw .cellsExhausted) e := by
  split
  · exact follows
  · rename_i tooMany
    refine .exhausted ?_
    by_contra enough
    exact tooMany ((room enough).cells_le mem)

namespace Serves

variable [SingleArith] {p : Program} {n : Numbering} {host : Host σ}
  {fs : List (LinkedFunction σ)}

theorem follows_import (serves : Serves p n host fs) {g : FuncRef} {d : Declaration}
    (known : p.get? g = some d) (imported : d.isImport = true) {depth cells : Nat}
    (room : ¬short → LinkedFunction.Roomy fs depth cells) :
    ∃ f, fs[n.number g]? = some f ∧ f.type = d.funcType ∧ ∀ args, d.Takes args →
      Follows short (Gives d.result) (callFunction fs depth cells f (args.map .ofScalar))
        (p.evaluate host depth g args) := by
  obtain ⟨run, found, at_g⟩ := serves.imports g d known imported
  refine ⟨_, at_g, rfl, ?_⟩
  intro args _
  rw [Program.evaluate_import known imported, callFunction]
  exact LinkedFunction.Roomy.follows_ite room (List.mem_of_getElem? at_g)
    (follows_callHost found args)

/-- Calls of the functions of a program give what the program means, to any depth. -/
theorem follows_call (serves : Serves p n host fs) (tidy : p.Tidy) (depth : Nat) {cells : Nat}
    (room : ¬short → LinkedFunction.Roomy fs depth cells) {g : FuncRef} {d : Declaration}
    (known : p.get? g = some d) :
    ∃ f, fs[n.number g]? = some f ∧ f.type = d.funcType ∧ ∀ args, d.Takes args →
      Follows short (Gives d.result) (callFunction fs depth cells f (args.map .ofScalar))
        (p.evaluate host depth g args) := by
  induction depth generalizing cells g d with
  | zero =>
    by_cases imported : d.isImport = true
    · exact serves.follows_import known imported room
    have defined : d.isImport = false := by simpa using imported
    obtain ⟨body, taken, has, typed, returns, at_g⟩ := serves.bodies g d known defined
    refine ⟨_, at_g, rfl, ?_⟩
    intro args _
    rw [Program.evaluate_zero known defined]
    exact .throw .callDepth
  | succ depth ih =>
    by_cases imported : d.isImport = true
    · exact serves.follows_import known imported room
    have defined : d.isImport = false := by simpa using imported
    obtain ⟨body, taken, has, typed, returns, at_g⟩ := serves.bodies g d known defined
    refine ⟨_, at_g, rfl, ?_⟩
    intro args takes
    have mem := List.mem_of_getElem? at_g
    rw [Program.evaluate_succ known defined has, callFunction]
    refine LinkedFunction.Roomy.follows_ite room mem ?_
    refine Scope.follows_body (s := ⟨p, g, d⟩) known tidy ?_ typed returns takes
    -- The calls inside this one have one level less, and fewer cells.
    intro h e callee
    obtain ⟨f, at_h, type, follows⟩ := ih (fun enough => (room enough).inside mem) callee
    refine ⟨⟨f.type.params.length, callFunction fs depth (cells - taken) f⟩, ?_, ?_, follows⟩
    · exact congrArg (Option.map _) at_h
    · rw [type]

end Serves

end WasmForge

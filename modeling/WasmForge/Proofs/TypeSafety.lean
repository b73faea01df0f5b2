import Mathlib
import WasmForge.Machine.Instance
import WasmForge.Proofs.Runs
import WasmForge.Proofs.StackTyping

/-!
# Typed code does not go wrong

The machine on code that the typing machine accepts: operands and locals have the types that were
worked out for them, so no instruction lacks an operand, every call gets arguments of its parameter
types, and what comes back has the result types.  This holds at every depth of calls inside each
other, and it does not depend on what the functions of the host do, as long as each of them keeps
what is watched about the state of the host.

* `Watch`, `Watch.Ensures`: what is watched, and what a run makes sure of.
* `Machine.ensures_runOp`: one instruction.
* `Machine.ensures_runAll`, `Machine.ensures_runBody`: code without constructs, and a body.
* `ensures_callFunction`: calls, to any depth.
-/

namespace WasmForge

variable {σ α β : Type}

/-! ## What a run makes sure of -/

/-- The traps that typed code can run into by itself. -/
inductive Trap.OfTypedCode : Trap → Prop where
  /-- `unreachable` was executed. -/
  | unreachable : OfTypedCode .unreachable
  /-- Too many calls inside each other. -/
  | callDepth : OfTypedCode .callDepth
  /-- Too many cells in use. -/
  | cellsExhausted : OfTypedCode .cellsExhausted

/-- What is watched about the state of the host.  A run goes on in `calm` states only, and a trap
`t` leaves a state in `ended t`. -/
structure Watch (σ : Type) where
  /-- The states that a run goes on in. -/
  calm : σ → Prop
  /-- The states that a trap leaves. -/
  ended : Trap → σ → Prop
  /-- Code may trap by itself at any time. -/
  stops : ∀ t st, t.OfTypedCode → calm st → ended t st

namespace Watch

variable {w : Watch σ} {Q : α → Prop} {R : β → Prop}

/-- From a calm state, the run ends in a calm state with a value in `Q`, or it traps in a state that
its trap may leave. -/
def Ensures (w : Watch σ) (Q : α → Prop) (m : Run σ α) : Prop :=
  ∀ st, w.calm st →
    match m.run.run st with
    | (.ok a, after) => w.calm after ∧ Q a
    | (.error t, after) => w.ended t after

theorem Ensures.pure {a : α} (holds : Q a) : w.Ensures Q (Pure.pure a) :=
  fun _ calm => ⟨calm, holds⟩

theorem Ensures.throw {t : Trap} (typed : t.OfTypedCode) :
    w.Ensures Q (MonadExcept.throw t : Run σ α) :=
  fun st calm => w.stops t st typed calm

theorem Ensures.bind {m : Run σ α} {f : α → Run σ β} (first : w.Ensures Q m)
    (rest : ∀ a, Q a → w.Ensures R (f a)) : w.Ensures R (m >>= f) := by
  intro st calm
  have head := first st calm
  rw [Run.run_bind]
  generalize m.run.run st = x at head ⊢
  rcases x with ⟨_ | a, after⟩
  · exact head
  · exact rest a head.2 after head.1

end Watch

/-! ## Typed activations -/

/-- The types of values. -/
def Value.types (vs : List Value) : List ValType := vs.map Value.type

/-- Locals and operands have the given types; operands are listed last pushed first. -/
structure Activation.Typed (a : Activation) (locals operands : List ValType) : Prop where
  /-- The locals. -/
  locals : Value.types a.locals = locals
  /-- The operands. -/
  stack : Value.types a.stack = operands

/-- Code ends as the typing machine says: at its end with the operands of a construct that can be
reached, or with a return and the results on top. -/
inductive Exit.Typed (locals results : List ValType) (f : Typing.Frame) : Exit → Prop where
  /-- At its end. -/
  | next {a : Activation} (reached : f.unreachable = false) (typed : a.Typed locals f.operands) :
      Exit.Typed locals results f (.next a)
  /-- With a return. -/
  | ret {a : Activation} {below : List ValType}
      (typed : a.Typed locals (results.reverse ++ below)) :
      Exit.Typed locals results f (.ret a)

namespace Value

variable {vs : List Value} {t : ValType} {ts us : List ValType}

theorem types_eq_cons (typed : types vs = t :: ts) :
    ∃ v rest, vs = v :: rest ∧ v.type = t ∧ types rest = ts := by
  cases vs with
  | nil => cases typed
  | cons v rest =>
    rw [types, List.map_cons, List.cons.injEq] at typed
    exact ⟨v, rest, rfl, typed.1, typed.2⟩

/-- Values whose types come in two parts come in two parts. -/
theorem types_eq_append (typed : types vs = ts ++ us) :
    ∃ first rest, vs = first ++ rest ∧ types first = ts ∧ types rest = us :=
  List.map_eq_append_iff.1 typed

theorem eq_i32 {v : Value} (type : v.type = .i32) : ∃ x, v = .i32 x := by
  cases v <;> simp_all [Value.type]

theorem eq_f32 {v : Value} (type : v.type = .f32) : ∃ x, v = .f32 x := by
  cases v <;> simp_all [Value.type]

end Value

theorem Activation.Typed.push {a : Activation} {locals operands : List ValType}
    (typed : a.Typed locals operands) (v : Value) : (a.push v).Typed locals (v.type :: operands) :=
  ⟨typed.locals, congrArg (v.type :: ·) typed.stack⟩

theorem Activation.Typed.pushAll {a : Activation} {locals operands : List ValType}
    (typed : a.Typed locals operands) (vs : List Value) :
    (a.pushAll vs).Typed locals ((Value.types vs).reverse ++ operands) := by
  refine ⟨typed.locals, ?_⟩
  rw [← typed.stack]
  simp [Activation.pushAll, Value.types]

/-- Operands of the right types can be popped. -/
theorem Activation.Typed.popAll {a : Activation} {locals operands ts : List ValType}
    (typed : a.Typed locals (ts.reverse ++ operands)) :
    ∃ vs below, a.popAll ts.length = some (vs, below) ∧ Value.types vs = ts ∧
      below.Typed locals operands := by
  obtain ⟨top, rest, split, tops, rests⟩ := Value.types_eq_append typed.stack
  have size : top.length = ts.length := by
    simpa [Value.types] using congrArg List.length tops
  refine ⟨top.reverse, { a with stack := rest }, ?_, ?_, typed.locals, rests⟩
  · simp [Activation.popAll, split, ← size]
  · rw [← List.reverse_inj, ← tops]
    simp [Value.types]

/-! ## Popping types -/

namespace Typing.Frame

/-- In a construct that can be reached, types are popped only if they are there. -/
theorem popAll_eq_some {f g : Frame} {ts : List ValType} (reached : f.unreachable = false)
    (popped : f.popAll ts = some g) :
    f.operands = ts.reverse ++ g.operands ∧ g.unreachable = false := by
  have reversed : ∀ (rs : List ValType) (f : Frame), f.unreachable = false →
      rs.foldlM pop f = some g → f.operands = rs ++ g.operands ∧ g.unreachable = false := by
    intro rs
    induction rs with
    | nil =>
      rintro f reached ⟨⟩
      exact ⟨rfl, reached⟩
    | cons r rs ih =>
      intro f reached popped
      rw [List.foldlM_cons] at popped
      cases operands : f.operands with
      | nil => simp [pop, operands, reached] at popped
      | cons top rest =>
        by_cases same : top = r
        · simp only [pop, operands, same, if_true, Option.bind_eq_bind, Option.bind_some] at popped
          obtain ⟨left, still⟩ := ih { f with operands := rest } reached popped
          exact ⟨congrArg₂ List.cons same left, still⟩
        · simp [pop, operands, same] at popped
  exact reversed ts.reverse f reached popped

theorem pop_eq_some {f g : Frame} {t : ValType} (reached : f.unreachable = false)
    (popped : f.pop t = some g) : f.operands = t :: g.operands ∧ g.unreachable = false := by
  have single : f.popAll [t] = some g := by
    simpa [popAll] using popped
  exact popAll_eq_some reached single

theorem popAny_eq_some {f g : Frame} (reached : f.unreachable = false)
    (popped : f.popAny = some g) :
    ∃ t, f.operands = t :: g.operands ∧ g.unreachable = false := by
  unfold popAny at popped
  split at popped
  · simp [reached] at popped
  · rename_i top rest operands
    cases popped
    exact ⟨top, operands, reached⟩

end Typing.Frame

/-! ## One instruction -/

namespace Machine

open Typing

variable [SingleArith] {w : Watch σ} {ctx : Context Nat Nat} {callee : Nat → Option (Callee σ)}
  {locals : List ValType}

/-- What is called has the type that code is checked against, and keeps to it. -/
def CallsTyped (w : Watch σ) (ctx : Context Nat Nat) (callee : Nat → Option (Callee σ)) : Prop :=
  ∀ i type, ctx.funcType? i = some type →
    ∃ c, callee i = some c ∧ c.arity = type.params.length ∧
      ∀ args, Value.types args = type.params →
        w.Ensures (fun results => Value.types results = type.results) (c.enter args)

/-- An instruction that type-checks does what its types say. -/
theorem ensures_runOp {frames : List Frame} {f g : Frame} {o : Op Nat Nat} {a : Activation}
    (calls : CallsTyped w ctx callee) (named : ∀ i, ctx.localType? i = locals[i]?)
    (straight : o.branch? = none) (checked : stepOp ctx frames f o = some g)
    (reached : f.unreachable = false) (typed : a.Typed locals f.operands) :
    w.Ensures (Exit.Typed locals ctx.results g) (runOp callee a o) := by
  cases o with
  | unreachable => exact .throw .unreachable
  | nop =>
    cases checked
    exact .pure (.next reached typed)
  | br label => cases straight
  | brIf label => cases straight
  | ret =>
    simp only [stepOp, Option.bind_eq_bind, Option.bind_eq_some_iff] at checked
    obtain ⟨rest, popped, -⟩ := checked
    obtain ⟨operands, -⟩ := Frame.popAll_eq_some reached popped
    exact .pure (.ret (operands ▸ typed))
  | call i =>
    simp only [stepOp, Option.bind_eq_bind, Option.bind_eq_some_iff] at checked
    obtain ⟨type, known, rest, popped, ⟨⟩⟩ := checked
    obtain ⟨operands, still⟩ := Frame.popAll_eq_some reached popped
    obtain ⟨c, found, arity, enters⟩ := calls i type known
    obtain ⟨args, below, taken, types, left⟩ := (operands ▸ typed).popAll
    have takes : a.popAll c.arity = some (args, below) := by rw [arity, taken]
    simp only [runOp, found, takes]
    refine (enters args types).bind ?_
    intro results given
    exact .pure (.next still (given ▸ left.pushAll results))
  | drop =>
    obtain ⟨t, operands, still⟩ := Frame.popAny_eq_some reached checked
    obtain ⟨v, rest, split, -, types⟩ := Value.types_eq_cons (typed.stack.trans operands)
    simp only [runOp, split]
    exact .pure (.next still ⟨typed.locals, types⟩)
  | localGet i =>
    simp only [stepOp, Option.bind_eq_bind, Option.bind_eq_some_iff, named] at checked
    obtain ⟨t, at_i, ⟨⟩⟩ := checked
    rw [← typed.locals, Value.types, List.getElem?_map, Option.map_eq_some_iff] at at_i
    obtain ⟨v, held, rfl⟩ := at_i
    simp only [runOp, held]
    exact .pure (.next reached (typed.push v))
  | localSet i =>
    simp only [stepOp, Option.bind_eq_bind, Option.bind_eq_some_iff, named] at checked
    obtain ⟨t, at_i, popped⟩ := checked
    obtain ⟨operands, still⟩ := Frame.pop_eq_some reached popped
    obtain ⟨v, rest, split, rfl, types⟩ := Value.types_eq_cons (typed.stack.trans operands)
    have kept : Value.types (a.locals.set i v) = locals := by
      obtain ⟨lt, here⟩ := List.getElem?_eq_some_iff.1 at_i
      rw [Value.types, List.map_set, ← Value.types, typed.locals, ← here, List.set_getElem_self]
    simp only [runOp, split]
    exact .pure (.next still ⟨kept, types⟩)
  | i32Const v =>
    cases checked
    exact .pure (.next reached (typed.push (.i32 v)))
  | i64Const v =>
    cases checked
    exact .pure (.next reached (typed.push (.i64 v)))
  | f32Const v =>
    cases checked
    exact .pure (.next reached (typed.push (.f32 v)))
  | f64Const v =>
    cases checked
    exact .pure (.next reached (typed.push (.f64 v)))
  | i32Arith op =>
    simp only [stepOp, Option.bind_eq_bind, Option.bind_eq_some_iff] at checked
    obtain ⟨rest, popped, ⟨⟩⟩ := checked
    obtain ⟨operands, still⟩ := Frame.popAll_eq_some reached popped
    obtain ⟨y, _, split, typeY, tail⟩ := Value.types_eq_cons (typed.stack.trans operands)
    obtain ⟨x, below, rfl, typeX, types⟩ := Value.types_eq_cons tail
    obtain ⟨y, rfl⟩ := Value.eq_i32 typeY
    obtain ⟨x, rfl⟩ := Value.eq_i32 typeX
    simp only [runOp, split]
    exact .pure (.next still ⟨typed.locals, congrArg (ValType.i32 :: ·) types⟩)
  | f32Arith op =>
    simp only [stepOp, Option.bind_eq_bind, Option.bind_eq_some_iff] at checked
    obtain ⟨rest, popped, ⟨⟩⟩ := checked
    obtain ⟨operands, still⟩ := Frame.popAll_eq_some reached popped
    obtain ⟨y, _, split, typeY, tail⟩ := Value.types_eq_cons (typed.stack.trans operands)
    obtain ⟨x, below, rfl, typeX, types⟩ := Value.types_eq_cons tail
    obtain ⟨y, rfl⟩ := Value.eq_f32 typeY
    obtain ⟨x, rfl⟩ := Value.eq_f32 typeX
    simp only [runOp, split]
    exact .pure (.next still ⟨typed.locals, congrArg (ValType.f32 :: ·) types⟩)

/-! ## Code and bodies -/

/-- Code without constructs that type-checks does what its types say. -/
theorem ensures_runAll {code : List (Instr Nat Nat)} {f g : Frame} {a : Activation}
    (calls : CallsTyped w ctx callee) (named : ∀ i, ctx.localType? i = locals[i]?)
    (straight : ∀ i ∈ code, ∃ o, i = .op o ∧ o.branch? = none)
    (checked : steps ctx [f] code = some [g]) (reached : f.unreachable = false)
    (typed : a.Typed locals f.operands) :
    w.Ensures (Exit.Typed locals ctx.results g) (runAll callee (Node.ofStraight code) a) := by
  induction code generalizing f a with
  | nil =>
    cases checked
    show w.Ensures _ (runAll callee [] a)
    rw [runAll]
    exact .pure (.next reached typed)
  | cons i code ih =>
    rw [List.forall_mem_cons] at straight
    obtain ⟨⟨o, rfl, noBranch⟩, rest⟩ := straight
    rw [steps, List.foldlM_cons, Option.bind_eq_bind, Option.bind_eq_some_iff] at checked
    obtain ⟨frames, first, later⟩ := checked
    simp only [step, Option.bind_eq_bind, Option.bind_eq_some_iff] at first
    obtain ⟨mid, once, ⟨⟩⟩ := first
    show w.Ensures _ (runAll callee (.op o :: Node.ofStraight code) a)
    rw [runAll, run]
    refine (ensures_runOp calls named noBranch once reached typed).bind ?_
    rintro _ (⟨still, left⟩ | left)
    · exact ih rest later still left
    · exact .pure (.ret left)

/-- A body whose code type-checks gives results of the result types. -/
theorem ensures_runBody {code : List (Instr Nat Nat)} {g : Frame} {returns : Prop}
    {values : List Value} (calls : CallsTyped w ctx callee)
    (named : ∀ i, ctx.localType? i = (Value.types values)[i]?)
    (straight : ∀ i ∈ code, ∃ o, i = .op o ∧ o.branch? = none)
    (checked : steps ctx [.enter ctx.results [] ctx.results] code = some [g])
    (after : Frame.After returns (.enter ctx.results [] ctx.results) g)
    (needed : ctx.results ≠ [] → returns) :
    w.Ensures (fun results => Value.types results = ctx.results)
      (runBody callee ctx.results.length (Node.ofStraight code) values) := by
  refine (ensures_runAll calls named straight checked rfl ⟨rfl, rfl⟩).bind ?_
  rintro _ (⟨reached, typed⟩ | typed)
  · -- the end can be reached only if no return is needed, and then there are no results
    have none : ctx.results = [] := by
      by_contra some
      rw [after.left (needed some)] at reached
      cases reached
    rw [none]
    exact .pure rfl
  · obtain ⟨results, below, taken, types, -⟩ := typed.popAll
    dsimp only
    rw [taken]
    exact .pure types

end Machine

/-! ## Calls -/

/-- The code of the function type-checks, in a module whose functions have the given types. -/
def DefinedFunction.Checked (functions : List FuncType) (g : DefinedFunction) : Prop :=
  ∃ (ctx : Typing.Context Nat Nat) (code : List (Instr Nat Nat)) (f : Typing.Frame)
    (returns : Prop),
    (∀ i, ctx.localType? i = (g.type.params ++ g.locals)[i]?) ∧
    (∀ i, ctx.funcType? i = functions[i]?) ∧ ctx.results = g.type.results ∧
    g.body = Node.ofStraight code ∧ (∀ i ∈ code, ∃ o, i = .op o ∧ o.branch? = none) ∧
    Typing.steps ctx [.enter ctx.results [] ctx.results] code = some [f] ∧
    Typing.Frame.After returns (.enter ctx.results [] ctx.results) f ∧
    (ctx.results ≠ [] → returns)

/-- A function that keeps to its type: one of the host does so on its own account, one of the module
because its code type-checks. -/
def LinkedFunction.Sound (w : Watch σ) (functions : List FuncType) : LinkedFunction σ → Prop
  | .host name type run => ∀ args, Value.types args = type.params →
      w.Ensures (fun results => Value.types results = type.results) (callHost name type run args)
  | .defined g => g.Checked functions

/-- At every index that has a type there is a function of that type, which keeps to it. -/
def LinkedFunction.AllSound (w : Watch σ) (functions : List FuncType)
    (fs : List (LinkedFunction σ)) : Prop :=
  ∀ (i : Nat) (type : FuncType), functions[i]? = some type →
    ∃ f, fs[i]? = some f ∧ f.type = type ∧ f.Sound w functions

/-- A call with arguments of the parameter types gives results of the result types, to any depth. -/
theorem ensures_callFunction [SingleArith] {w : Watch σ} {functions : List FuncType}
    {fs : List (LinkedFunction σ)} (sound : LinkedFunction.AllSound w functions fs)
    (depth cells : Nat) {f : LinkedFunction σ} (keeps : f.Sound w functions) {args : List Value}
    (typed : Value.types args = f.type.params) :
    w.Ensures (fun results => Value.types results = f.type.results)
      (callFunction fs depth cells f args) := by
  have host : ∀ (depth cells : Nat) name type (run : HostFunction σ) args,
      (LinkedFunction.host name type run).Sound w functions → Value.types args = type.params →
      w.Ensures (fun results => Value.types results = type.results)
        (callFunction fs depth cells (.host name type run) args) := by
    intro depth cells name type run args keeps typed
    rw [callFunction]
    split
    · exact keeps args typed
    · exact .throw .cellsExhausted
  induction depth generalizing cells f args with
  | zero =>
    cases f with
    | host name type run => exact host 0 cells name type run args keeps typed
    | defined g => exact .throw .callDepth
  | succ depth ih =>
    cases f with
    | host name type run => exact host (depth + 1) cells name type run args keeps typed
    | defined g =>
      obtain ⟨ctx, code, f, returns, named, known, results, body, straight, checked, after,
        needed⟩ := keeps
      rw [callFunction]
      split
      · have zeros : Value.types (args ++ g.locals.map .zero) = g.type.params ++ g.locals := by
          have types : Value.types (g.locals.map .zero) = g.locals := by
            simp [Value.types, Function.comp_def]
          rw [Value.types, List.map_append, ← Value.types, ← Value.types, typed, types]
          rfl
        show w.Ensures (fun r => Value.types r = g.type.results) _
        rw [← results, body]
        refine Machine.ensures_runBody ?_ (fun i => by rw [named, zeros]) straight checked after
          needed
        -- The calls inside this one have one level less, and fewer cells.
        intro i type typeOf
        rw [known] at typeOf
        obtain ⟨h, found, rfl, keeps⟩ := sound i type typeOf
        exact ⟨_, congrArg (Option.map _) found, rfl, fun args typed => ih _ keeps typed⟩
      · exact .throw .cellsExhausted

end WasmForge

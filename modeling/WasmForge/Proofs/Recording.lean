import Mathlib
import WasmForge.Machine.Instance
import WasmForge.Proofs.Runs

/-!
# Writing down what the host is asked

What passes between an instance and its host cannot be read off the end of a run, since the host may
forget it.  So the functions of the host are wrapped: each of them does what it did, and writes its
arguments and its answer down.  A run does not notice.

* `Invocation`, `HostFunction.recorded`: an invocation of a host function, and its record.
* `Run.SeenAs`: a run over more state than another one does the same.
* `LinkedFunction.SeenAs`, `Instance.SeenAs`: functions and instances that do the same.
* `Instance.recorded`, `Instance.seenAs_recorded`: an instance that keeps records.
* `Exchange`, `Instance.exchanges`: calls of exports, each with the invocations made during it.
-/

namespace WasmForge

variable {σ τ α β : Type}

/-- A host function was called and answered. -/
structure Invocation where
  /-- The name that the function is imported by. -/
  name : String
  /-- The arguments. -/
  args : List Scalar
  /-- The answer. -/
  answer : Option Scalar
  deriving DecidableEq

/-- Writes down each invocation, last one last. -/
def HostFunction.recorded (name : String) (f : HostFunction σ) :
    HostFunction (σ × List Invocation) := fun args => do
  let (st, log) ← get
  let (answer, after) := (f args).run st
  set (after, log ++ [⟨name, args, answer⟩])
  return answer

/-- The function, with its invocations written down if it is one of the host. -/
def LinkedFunction.recorded : LinkedFunction σ → LinkedFunction (σ × List Invocation)
  | host name type run => host name type (run.recorded name)
  | defined f => defined f

/-- The instance, with all invocations of host functions written down. -/
def Instance.recorded (i : Instance σ) : Instance (σ × List Invocation) :=
  { functions := i.functions.map .recorded, exports := i.exports, memory := i.memory }

/-! ## Runs over more state -/

/-- From every state, the first run ends as the second does from what is seen of the state. -/
def Run.SeenAs (view : τ → σ) (m : Run τ α) (e : Run σ α) : Prop :=
  ∀ st, Prod.map id view (m.run.run st) = e.run.run (view st)

namespace Run.SeenAs

variable {view : τ → σ}

theorem pure (a : α) : SeenAs view (Pure.pure a) (Pure.pure a) :=
  fun _ => rfl

theorem throw (t : Trap) :
    SeenAs view (MonadExcept.throw t : Run τ α) (MonadExcept.throw t : Run σ α) :=
  fun _ => rfl

theorem bind {m : Run τ α} {e : Run σ α} {f : α → Run τ β} {g : α → Run σ β}
    (first : SeenAs view m e) (rest : ∀ a, SeenAs view (f a) (g a)) :
    SeenAs view (m >>= f) (e >>= g) := by
  intro st
  rw [Run.run_bind, Run.run_bind, ← first st]
  rcases m.run.run st with ⟨_ | a, after⟩
  · rfl
  · exact rest a after

theorem ite {c : Prop} [Decidable c] {m m' : Run τ α} {e e' : Run σ α} (yes : SeenAs view m e)
    (no : SeenAs view m' e') : SeenAs view (if c then m else m') (if c then e else e') := by
  split
  · exact yes
  · exact no

end Run.SeenAs

/-! ## Code -/

namespace Machine

variable [SingleArith] {view : τ → σ} {callee : Nat → Option (Callee τ)}
  {seen : Nat → Option (Callee σ)}

/-- Calls of the same functions do the same, as far as can be seen. -/
def CallsSeenAs (view : τ → σ) (callee : Nat → Option (Callee τ))
    (seen : Nat → Option (Callee σ)) : Prop :=
  ∀ i, Option.Rel
    (fun c d => c.arity = d.arity ∧ ∀ args, Run.SeenAs view (c.enter args) (d.enter args))
    (callee i) (seen i)

theorem seenAs_runOp (calls : CallsSeenAs view callee seen) (a : Activation) (o : Op Nat Nat) :
    Run.SeenAs view (runOp callee a o) (runOp seen a o) := by
  cases o with
  | call i =>
    have same := calls i
    generalize given : callee i = x, givenSeen : seen i = y at same
    cases same with
    | none =>
      simp only [runOp, given, givenSeen]
      exact .throw .illTyped
    | some both =>
      obtain ⟨arity, enters⟩ := both
      simp only [runOp, given, givenSeen, arity]
      split
      · exact .throw .illTyped
      · exact (enters _).bind fun results => .pure _
  | brIf label | drop | localGet i | localSet i | i32Arith op | f32Arith op =>
    simp only [runOp]
    split
    · exact .pure _
    · exact .throw .illTyped
  | unreachable => exact .throw .unreachable
  | nop | br label | ret | i32Const v | i64Const v | f32Const v | f64Const v => exact .pure _

omit [SingleArith] in
theorem seenAs_turns {params : Nat} {body : Activation → Run τ Exit}
    {other : Activation → Run σ Exit} (same : ∀ a, Run.SeenAs view (body a) (other a)) (left : Nat)
    (a : Activation) : Run.SeenAs view (turns params body left a) (turns params other left a) := by
  induction left generalizing a with
  | zero => exact .throw .loopTurns
  | succ left ih =>
    refine (same a).bind ?_
    intro exit
    split
    · exact ih _
    · exact .pure _

mutual

theorem seenAs_run (calls : CallsSeenAs view callee seen) (node : Node) (a : Activation) :
    Run.SeenAs view (run callee node a) (run seen node a) := by
  cases node with
  | op o =>
    rw [run, run]
    exact seenAs_runOp calls a o
  | block params results body =>
    rw [run, run]
    exact (seenAs_runAll calls body _).bind fun exit => .pure _
  | loop params results body =>
    rw [run, run]
    exact (seenAs_turns (seenAs_runAll calls body) _ _).bind fun exit => .pure _

theorem seenAs_runAll (calls : CallsSeenAs view callee seen) (nodes : List Node) (a : Activation) :
    Run.SeenAs view (runAll callee nodes a) (runAll seen nodes a) := by
  cases nodes with
  | nil =>
    rw [runAll, runAll]
    exact .pure _
  | cons node rest =>
    rw [runAll, runAll]
    refine (seenAs_run calls node a).bind ?_
    intro exit
    split
    · exact seenAs_runAll calls rest _
    · exact .pure _

end

theorem seenAs_runBody (calls : CallsSeenAs view callee seen) (arity : Nat) (body : List Node)
    (locals : List Value) :
    Run.SeenAs view (runBody callee arity body locals) (runBody seen arity body locals) := by
  refine (seenAs_runAll calls body _).bind ?_
  intro exit
  dsimp only
  split
  · exact .pure _
  · exact .throw .illTyped

end Machine

/-! ## Calls -/

section Calls

variable {view : τ → σ}

/-- The function does what the other one does, as far as can be seen. -/
inductive LinkedFunction.SeenAs (view : τ → σ) : LinkedFunction τ → LinkedFunction σ → Prop where
  /-- Functions of the host. -/
  | host {name : String} {type : FuncType} {f : HostFunction τ} {g : HostFunction σ}
      (same : ∀ args, Run.SeenAs view (callHost name type f args) (callHost name type g args)) :
      SeenAs view (.host name type f) (.host name type g)
  /-- Functions of the module. -/
  | defined (f : DefinedFunction) : SeenAs view (.defined f) (.defined f)

theorem LinkedFunction.SeenAs.type_eq {f : LinkedFunction τ} {g : LinkedFunction σ}
    (same : f.SeenAs view g) : f.type = g.type := by
  cases same <;> rfl

/-- The functions at an index do the same. -/
theorem rel_getElem? {fs : List (LinkedFunction τ)} {gs : List (LinkedFunction σ)}
    (functions : List.Forall₂ (LinkedFunction.SeenAs view) fs gs) (i : Nat) :
    Option.Rel (LinkedFunction.SeenAs view) fs[i]? gs[i]? := by
  induction functions generalizing i with
  | nil => exact .none
  | cons same _ ih =>
    cases i with
    | zero => exact .some same
    | succ i => exact ih i

/-- Calls of functions that do the same do the same, to any depth. -/
theorem seenAs_callFunction [SingleArith] {fs : List (LinkedFunction τ)}
    {gs : List (LinkedFunction σ)}
    (functions : List.Forall₂ (LinkedFunction.SeenAs view) fs gs) (depth cells : Nat)
    {f : LinkedFunction τ} {g : LinkedFunction σ} (same : f.SeenAs view g) (args : List Value) :
    Run.SeenAs view (callFunction fs depth cells f args) (callFunction gs depth cells g args) := by
  induction depth generalizing cells f g args with
  | zero =>
    cases same with
    | host same =>
      rw [callFunction, callFunction]
      exact .ite (same args) (.throw .cellsExhausted)
    | defined f => exact .throw .callDepth
  | succ depth ih =>
    cases same with
    | host same =>
      rw [callFunction, callFunction]
      exact .ite (same args) (.throw .cellsExhausted)
    | defined f =>
      rw [callFunction, callFunction]
      refine .ite (Machine.seenAs_runBody ?_ _ _ _) (.throw .cellsExhausted)
      intro i
      dsimp only
      have at_i := rel_getElem? functions i
      generalize fs[i]? = x, gs[i]? = y at at_i
      cases at_i with
      | none => exact .none
      | some same => exact .some ⟨congrArg (·.params.length) same.type_eq, ih _ same⟩

namespace Instance

/-- The instance does what the other one does, as far as can be seen. -/
structure SeenAs (view : τ → σ) (i : Instance τ) (j : Instance σ) : Prop where
  /-- The functions. -/
  functions : List.Forall₂ (LinkedFunction.SeenAs view) i.functions j.functions
  /-- The exports. -/
  exports : i.exports = j.exports

variable [SingleArith]

theorem SeenAs.invoke {i : Instance τ} {j : Instance σ} (same : i.SeenAs view j) (index : Nat)
    (args : List Value) : Run.SeenAs view (i.invoke index args) (j.invoke index args) := by
  have at_index := rel_getElem? same.functions index
  unfold Instance.invoke
  generalize i.functions[index]? = x, j.functions[index]? = y at at_index
  cases at_index with
  | none => exact .throw .illTyped
  | some both =>
    dsimp only
    rw [both.type_eq]
    exact .ite (seenAs_callFunction same.functions _ _ both args) (.throw .badArguments)

/-- A call of an export does the same. -/
theorem SeenAs.call {i : Instance τ} {j : Instance σ} (same : i.SeenAs view j) (name : String)
    (args : List Scalar) (st : τ) :
    Prod.map id view ((i.call name args).run st) = (j.call name args).run (view st) := by
  rw [Instance.call, Instance.call, same.exports]
  cases j.exports.lookup name with
  | none => rfl
  | some index =>
    have ends := same.invoke index (args.map .ofScalar) st
    dsimp only
    rw [StateT.run_bind, StateT.run_bind, ← ends]
    rcases (i.invoke index (args.map .ofScalar)).run.run st with ⟨_ | _, _⟩ <;> rfl

end Instance

end Calls

theorem seenAs_callHost (name : String) (type : FuncType) (f : HostFunction σ)
    (args : List Value) :
    Run.SeenAs Prod.fst (callHost name type (f.recorded name) args)
      (callHost name type f args) := by
  rw [callHost, callHost]
  split
  · exact .throw _
  · rename_i scalars _
    have asked : Run.SeenAs Prod.fst
        (liftM (f.recorded name scalars) : Run (σ × List Invocation) (Option Scalar))
        (liftM (f scalars) : Run σ (Option Scalar)) := fun _ => rfl
    refine asked.bind ?_
    intro answer
    split
    · exact .pure _
    · exact .throw _

/-- An instance does the same, whether or not records are kept. -/
theorem Instance.seenAs_recorded (i : Instance σ) : i.recorded.SeenAs Prod.fst i := by
  refine ⟨?_, rfl⟩
  rw [recorded, List.forall₂_map_left_iff]
  refine List.forall₂_same.2 fun f _ => ?_
  cases f with
  | host name type run => exact .host (seenAs_callHost name type run)
  | defined f => exact .defined f

/-! ## Exchanges -/

/-- A call of an export: what was asked for, the invocations of host functions during the call,
first to last, and how it ended. -/
structure Exchange where
  /-- The name of the export. -/
  name : String
  /-- The arguments. -/
  args : List Scalar
  /-- What the host was asked meanwhile. -/
  invocations : List Invocation
  /-- How the call ended. -/
  outcome : Except CallError (Option Scalar)
  deriving DecidableEq

namespace Instance

variable [SingleArith]

/-- Calls an export and writes down what passes between instance and host. -/
def exchange (i : Instance σ) (name : String) (args : List Scalar) : StateM σ Exchange := do
  let st ← get
  let (outcome, after, invocations) := (i.recorded.call name args).run (st, [])
  set after
  return ⟨name, args, invocations, outcome⟩

/-- One call of an export after the other. -/
def exchanges (i : Instance σ) (calls : List (String × List Scalar)) : StateM σ (List Exchange) :=
  calls.mapM fun (name, args) => i.exchange name args

theorem run_exchange (i : Instance σ) (name : String) (args : List Scalar) (st : σ) :
    (i.exchange name args).run st =
      (⟨name, args, ((i.recorded.call name args).run (st, [])).2.2,
        ((i.recorded.call name args).run (st, [])).1⟩,
        ((i.recorded.call name args).run (st, [])).2.1) :=
  rfl

theorem run_exchanges_cons (i : Instance σ) (c : String × List Scalar)
    (calls : List (String × List Scalar)) (st : σ) :
    (i.exchanges (c :: calls)).run st =
      (((i.exchange c.1 c.2).run st).1 ::
          ((i.exchanges calls).run ((i.exchange c.1 c.2).run st).2).1,
        ((i.exchanges calls).run ((i.exchange c.1 c.2).run st).2).2) := by
  rw [exchanges, List.mapM_cons]
  rfl

/-- An exchange ends as the call does. -/
theorem outcome_exchange (i : Instance σ) (name : String) (args : List Scalar) :
    Exchange.outcome <$> i.exchange name args = i.call name args := by
  refine StateT.ext fun st => ?_
  rw [StateT.run_map, run_exchange, ← i.seenAs_recorded.call name args (st, [])]
  rfl

/-- What single exchanges show, exchanges one after the other show. -/
theorem map_exchanges_eq {i : Instance σ} {g : Exchange → α}
    {h : String → List Scalar → StateM σ α}
    (each : ∀ name args, g <$> i.exchange name args = h name args)
    (calls : List (String × List Scalar)) :
    List.map g <$> i.exchanges calls = calls.mapM fun (name, args) => h name args := by
  induction calls with
  | nil => simp [exchanges]
  | cons c calls ih =>
    obtain ⟨name, args⟩ := c
    rw [exchanges] at ih ⊢
    rw [List.mapM_cons, List.mapM_cons, ← ih]
    simp only [← each, map_bind, bind_map_left, map_pure, List.map_cons]

/-- Exchanges end as the calls do. -/
theorem outcome_exchanges (i : Instance σ) (calls : List (String × List Scalar)) :
    List.map Exchange.outcome <$> i.exchanges calls =
      calls.mapM fun (name, args) => i.call name args :=
  map_exchanges_eq i.outcome_exchange calls

/-- There is one exchange for each call, in the order of the calls. -/
theorem map_exchanges (i : Instance σ) (calls : List (String × List Scalar)) (st : σ) :
    ((i.exchanges calls).run st).1.map (fun e => (e.name, e.args)) = calls := by
  induction calls generalizing st with
  | nil => rfl
  | cons c calls ih =>
    rw [run_exchanges_cons, List.map_cons, ih, run_exchange]

/-- What holds of every exchange holds of all exchanges of a run. -/
theorem forall_mem_exchanges {i : Instance σ} {P : Exchange → Prop}
    (each : ∀ name args st, P ((i.exchange name args).run st).1)
    (calls : List (String × List Scalar)) (st : σ) : ∀ e ∈ ((i.exchanges calls).run st).1, P e := by
  induction calls generalizing st with
  | nil => exact fun e none => nomatch none
  | cons c calls ih =>
    rw [run_exchanges_cons, List.forall_mem_cons]
    exact ⟨each c.1 c.2 st, ih _⟩

end Instance

end WasmForge

import WasmForge.Host.Functions
import WasmForge.Machine.Run
import WasmForge.Program.Arena

/-!
# Evaluating programs directly

What a program means, without any module: statements run in order until the first return, operands
are evaluated left before right and arguments first to last, declared locals start at zero, and
integers wrap.  Calls of imports go to the host.

* `Eval.expr`, `Eval.stmt`: the evaluation of trees, given what calls do.
* `Program.evaluate`: calls a function of a program, with at most `depth` calls inside each other.
-/

namespace WasmForge

variable [SingleArith]

namespace Eval

variable {σ : Type}

/-- The locals of a call. -/
structure Store where
  /-- Values of the parameters. -/
  params : List Scalar
  /-- Values of the declared locals. -/
  vars : List Scalar

namespace Store

/-- The value at a place. -/
def get? (s : Store) : Place → Option Scalar
  | .param i => s.params[i]?
  | .var i => s.vars[i]?

/-- Changes the value at a place. -/
def set (s : Store) (v : Scalar) : Place → Store
  | .param i => { s with params := s.params.set i v }
  | .var i => { s with vars := s.vars.set i v }

end Store

/-- How a statement ends. -/
inductive Flow where
  /-- The next one runs. -/
  | next (s : Store)
  /-- The function is left. -/
  | ret (value : Option Scalar)

/-- The value that a declared local starts with. -/
def zero : ValueType → Scalar
  | .float32 => .float .zero
  | _ => .int 0

/-- Arithmetic on two scalars of one type. -/
def arith (op : Arith) : Option Scalar → Option Scalar → Except Trap Scalar
  | some (.int x), some (.int y) => .ok (.int (op.onInt x y))
  | some (.float x), some (.float y) => .ok (.float (op.onSingle x y))
  | _, _ => .error .illTyped

/-- One more than a scalar. -/
def succ : Scalar → Scalar
  | .int x => .int (Arith.add.onInt x 1)
  | .float x => .float (Arith.add.onSingle x .one)

/-- Takes the answer of a host function for the result of its type, whatever the answer's type. -/
def answer (name : String) : ValueType → Option Scalar → Except Trap (Option Scalar)
  | .void, none => .ok none
  | .int32, some s => .ok (some (.int s.asInt))
  | .float32, some s => .ok (some (.float s.asSingle))
  | .void, some _ => .error (.unexpectedAnswer name)
  | _, none => .error (.missingAnswer name)

/-- The result of a computation that may trap. -/
def ofExcept {α : Type} : Except Trap α → Run σ α
  | .ok a => return a
  | .error t => throw t

/-- A value that has to be there. -/
def value : Option Scalar → Run σ Scalar
  | some s => return s
  | none => throw .illTyped

/-! ## Trees -/

mutual

/-- The value of an expression, or none for a call without a result. -/
def expr (call : FuncRef → List Scalar → Run σ (Option Scalar)) (s : Store) :
    Expr → Run σ (Option Scalar)
  | .int v => return some (.int v)
  | .float v => return some (.float v)
  | .var l => some <$> value (s.get? l.place)
  | .arith op left right => do
    let x ← expr call s left
    let y ← expr call s right
    some <$> ofExcept (arith op x y)
  | .call f args => do
    let values ← exprs call s args
    call f values

/-- The values of arguments, first to last. -/
def exprs (call : FuncRef → List Scalar → Run σ (Option Scalar)) (s : Store) :
    List Expr → Run σ (List Scalar)
  | [] => return []
  | e :: rest => do
    let v ← value (← expr call s e)
    let vs ← exprs call s rest
    return v :: vs

end

mutual

/-- Runs a statement. -/
def stmt (call : FuncRef → List Scalar → Run σ (Option Scalar)) : Stmt → Store → Run σ Flow
  | .assign l e, s => do
    let v ← value (← expr call s e)
    return .next (s.set v l.place)
  | .increment l, s => do
    let v ← value (s.get? l.place)
    return .next (s.set (succ v) l.place)
  | .ret e, s => do return .ret (← expr call s e)
  | .expr e, s => do
    let _ ← expr call s e
    return .next s
  | .block body, s => stmts call body s

/-- Runs statements until the first return. -/
def stmts (call : FuncRef → List Scalar → Run σ (Option Scalar)) : List Stmt → Store → Run σ Flow
  | [], s => return .next s
  | c :: rest, s => do
    match ← stmt call c s with
    | .next s => stmts call rest s
    | .ret v => return .ret v

end

/-- Calls a host function that is imported as `d`. -/
def callImport (d : Declaration) (host : Host σ) (args : List Scalar) :
    Run σ (Option Scalar) := do
  match host.find? d.name with
  | none => throw .illTyped
  | some f =>
    let given ← (f args : StateM σ (Option Scalar))
    ofExcept (answer d.name d.result given)

/-- Calls a function with a body; a body that ends without a return gives no value. -/
def callBody (call : FuncRef → List Scalar → Run σ (Option Scalar)) (d : Declaration)
    (body : Stmt) (args : List Scalar) : Run σ (Option Scalar) := do
  match ← stmt call body ⟨args, d.locals.map zero⟩ with
  | .next _ => return none
  | .ret v => return v

end Eval

/-- Calls a function of the program, with at most `depth` calls inside each other. -/
def Program.evaluate {σ : Type} (p : Program) (host : Host σ) :
    (depth : Nat) → FuncRef → List Scalar → Run σ (Option Scalar)
  | 0, f, args =>
    match p.get? f with
    | none => throw .illTyped
    | some d => if d.isImport then Eval.callImport d host args else throw .callDepth
  | depth + 1, f, args =>
    match p.get? f with
    | none => throw .illTyped
    | some d =>
      if d.isImport then Eval.callImport d host args
      else match d.body with
        | none => throw .illTyped
        | some body => Eval.callBody (p.evaluate host depth) d body args

end WasmForge

import WasmForge.Assembly.Emission

/-!
# Lowering trees

Expressions and statements become straight-line code for a stack machine: operands left to right,
then the operator.  Types are checked on the way; every check comes after the instructions of the
parts that it looks at.

* `Scope`: the function whose body is lowered.
* `Scope.expr`, `Scope.stmt`: the emissions of a tree.
-/

namespace WasmForge

/-- The function whose body is lowered, in its program. -/
structure Scope where
  /-- The program. -/
  program : Program
  /-- The function. -/
  func : FuncRef
  /-- Its declaration. -/
  decl : Declaration

namespace Scope

/-- The scope of a function that the program defines. -/
def enter (p : Program) (f : FuncRef) : Except EmitError Scope :=
  match p.get? f with
  | none => .error (.resolution (.notRegistered f.index))
  | some d =>
    if d.isImport then .error (.lowering (.importHasNoBody d.name)) else .ok ⟨p, f, d⟩

/-- The name of the function. -/
def name (s : Scope) : String := s.decl.name

/-- What messages call a function, which may be one of another program. -/
def describe (s : Scope) (f : FuncRef) : String :=
  match s.program.get? f with
  | some d => d.name
  | none => s!"#{f.index} of another program"

/-- The type of a local, which has to be one of this function. -/
def localType (s : Scope) (l : Local) : Except EmitError ValueType :=
  if l.owner = s.func then
    match s.decl.localType? l.place with
    | some t => .ok t
    | none => .error (.lowering (.undeclaredLocal l.place s.name))
  else .error (.lowering (.foreignLocal l.place (s.describe l.owner) s.name))

/-- The declaration of a callee. -/
def callee (s : Scope) (f : FuncRef) : Except EmitError Declaration :=
  match s.program.get? f with
  | some d => .ok d
  | none => .error (.resolution (.unregisteredCall f.index s.name))

/-! ## Expressions -/

open Emission

/-- Combines the operands on the stack, which are of type `t`. -/
def arith (s : Scope) (op : Arith) : ValueType → Emission Unit
  | .int32 => emit (.i32Arith op)
  | .float32 => emit (.f32Arith op)
  | .void => fail (.voidOperands s.name)

mutual

/-- Leaves the value of an expression on the stack and tells its type. -/
def expr (s : Scope) : Expr → Emission ValueType
  | .int v => do
    emit (.i32Const v)
    return .int32
  | .float v => do
    emit (.f32Const v)
    return .float32
  | .var l => do
    let t ← lift (s.localType l)
    emit (.localGet l)
    return t
  | .arith op left right => do
    let lt ← s.expr left
    let rt ← s.expr right
    if lt = rt then
      s.arith op lt
      return lt
    else fail (.operandsDiffer lt op rt s.name)
  | .call f args => do
    let d ← lift (s.callee f)
    if d.params.length = args.length then
      s.arguments d.name d.params args
      emit (.call f)
      return d.result
    else fail (.argumentCount d.name d.params.length args.length s.name)

/-- Leaves the values of arguments on the stack, first to last. -/
def arguments (s : Scope) (callee : String) : List Param → List Expr → Emission Unit
  | p :: params, e :: args => do
    let t ← s.expr e
    if t = p.type then s.arguments callee params args
    else fail (.argumentType p.name callee p.type t s.name)
  | _, _ => return

end

/-! ## Statements -/

/-- Stores the value of an expression. -/
def assign (s : Scope) (l : Local) (e : Expr) : Emission Unit := do
  let target ← lift (s.localType l)
  let t ← s.expr e
  if t = target then emit (.localSet l)
  else fail (.assignedType t target l.place s.name)

/-- Adds one to a local. -/
def increment (s : Scope) (l : Local) : Emission Unit := do
  let t ← lift (s.localType l)
  emit (.localGet l)
  match t with
  | .int32 =>
    emit (.i32Const 1)
    emit (.i32Arith .add)
  | .float32 =>
    emit (.f32Const .one)
    emit (.f32Arith .add)
  | .void => fail (.voidIncrement s.name)
  emit (.localSet l)

/-- Leaves the function with the value of an expression. -/
def ret (s : Scope) (e : Expr) : Emission Unit := do
  let t ← s.expr e
  if t = s.decl.result then emit .ret
  else fail (.returnType s.name s.decl.result t)

/-- Evaluates an expression and discards its value. -/
def discard (s : Scope) (e : Expr) : Emission Unit := do
  let t ← s.expr e
  if t = .void then return else emit .drop

mutual

/-- Runs a statement; the stack is as before. -/
def stmt (s : Scope) : Stmt → Emission Unit
  | .assign l e => s.assign l e
  | .increment l => s.increment l
  | .ret e => s.ret e
  | .expr e => s.discard e
  | .block body => s.stmts body

/-- Runs statements, first to last. -/
def stmts (s : Scope) : List Stmt → Emission Unit
  | [] => return
  | c :: rest => do
    s.stmt c
    s.stmts rest

end

end Scope

end WasmForge

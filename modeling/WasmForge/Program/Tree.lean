import WasmForge.Program.Handle

/-!
# Expressions and statements

The bodies of functions.  Trees are not checked when they are made: whether the handles in them mean
anything, and whether the types fit, is found out when a body is lowered.

`==` on trees compares literals as numbers: the two zeros are equal and a NaN differs from itself,
so `==` is not reflexive.
-/

namespace WasmForge

/-- An expression. -/
inductive Expr where
  /-- An integer literal. -/
  | int (value : Int32)
  /-- A single-precision literal. -/
  | float (value : Single)
  /-- The value of a local. -/
  | var (place : Local)
  /-- Arithmetic, left operand first. -/
  | arith (op : Arith) (left right : Expr)
  /-- A call, arguments first to last. -/
  | call (callee : FuncRef) (args : List Expr)

/-- A statement. -/
inductive Stmt where
  /-- Stores the value of an expression. -/
  | assign (target : Local) (value : Expr)
  /-- Adds one to a local. -/
  | increment (target : Local)
  /-- Leaves the function with the value of an expression. -/
  | ret (value : Expr)
  /-- Evaluates an expression and discards its value. -/
  | expr (value : Expr)
  /-- Runs statements first to last. -/
  | block (body : List Stmt)

/-! ## Equality -/

mutual

/-- Equality of expressions, with literals compared as numbers. -/
def Expr.same : Expr → Expr → Bool
  | .int x, .int y => x == y
  | .float x, .float y => x.sameNumber y
  | .var l, .var m => l == m
  | .arith op l r, .arith op' l' r' => op == op' && l.same l' && r.same r'
  | .call f args, .call g args' => f == g && Expr.sameAll args args'
  | _, _ => false

/-- Equality of expressions in pairs. -/
def Expr.sameAll : List Expr → List Expr → Bool
  | [], [] => true
  | e :: es, e' :: es' => e.same e' && Expr.sameAll es es'
  | _, _ => false

end

instance : BEq Expr := ⟨Expr.same⟩

mutual

/-- Equality of statements, with literals compared as numbers. -/
def Stmt.same : Stmt → Stmt → Bool
  | .assign l e, .assign l' e' => l == l' && e == e'
  | .increment l, .increment l' => l == l'
  | .ret e, .ret e' => e == e'
  | .expr e, .expr e' => e == e'
  | .block ss, .block ss' => Stmt.sameAll ss ss'
  | _, _ => false

/-- Equality of statements in pairs. -/
def Stmt.sameAll : List Stmt → List Stmt → Bool
  | [], [] => true
  | s :: ss, s' :: ss' => s.same s' && Stmt.sameAll ss ss'
  | _, _ => false

end

instance : BEq Stmt := ⟨Stmt.same⟩

end WasmForge

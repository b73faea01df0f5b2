import WasmForge.Program.Arena

/-!
# Well-typed bodies

When a body makes sense in its function, said by rules and without reference to how it is lowered.

* `HasType p f e t`: in function `f` of program `p`, expression `e` has type `t`.
* `WellTyped p f s`: in function `f` of program `p`, statement `s` makes sense.
* `Stmt.Returns s`: statement `s` contains a return.
* `WellFormed p`: every function that `p` defines has a body that makes sense and, if it has a
  result, contains a return.
-/

namespace WasmForge

mutual

/-- The type of an expression in a function of a program. -/
inductive HasType (p : Program) (f : FuncRef) : Expr → ValueType → Prop where
  /-- Integer literals. -/
  | int (v : Int32) : HasType p f (.int v) .int32
  /-- Single-precision literals. -/
  | float (v : Single) : HasType p f (.float v) .float32
  /-- A local of this very function. -/
  | var {l : Local} {t : ValueType} (own : l.owner = f) (declared : p.localType? l = some t) :
      HasType p f (.var l) t
  /-- Arithmetic on two values of one type. -/
  | arith {op : Arith} {left right : Expr} {t : ValueType} (value : t ≠ .void)
      (left_type : HasType p f left t) (right_type : HasType p f right t) :
      HasType p f (.arith op left right) t
  /-- A call of a function of the program. -/
  | call {g : FuncRef} {d : Declaration} {args : List Expr} (known : p.get? g = some d)
      (arguments : HaveTypes p f args (d.params.map (·.type))) : HasType p f (.call g args) d.result

/-- The types of expressions, in pairs. -/
inductive HaveTypes (p : Program) (f : FuncRef) : List Expr → List ValueType → Prop where
  /-- No expressions. -/
  | nil : HaveTypes p f [] []
  /-- One more. -/
  | cons {e : Expr} {t : ValueType} {es : List Expr} {ts : List ValueType} (head : HasType p f e t)
      (tail : HaveTypes p f es ts) : HaveTypes p f (e :: es) (t :: ts)

end

/-- The statements that make sense in a function of a program. -/
inductive WellTyped (p : Program) (f : FuncRef) : Stmt → Prop where
  /-- The value has the type of the local. -/
  | assign {l : Local} {e : Expr} {t : ValueType} (own : l.owner = f)
      (declared : p.localType? l = some t) (value : HasType p f e t) : WellTyped p f (.assign l e)
  /-- The local holds a value. -/
  | increment {l : Local} {t : ValueType} (own : l.owner = f)
      (declared : p.localType? l = some t) (value : t ≠ .void) : WellTyped p f (.increment l)
  /-- The value has the result type of the function. -/
  | ret {e : Expr} {d : Declaration} (known : p.get? f = some d)
      (value : HasType p f e d.result) : WellTyped p f (.ret e)
  /-- The expression has a type. -/
  | expr {e : Expr} {t : ValueType} (value : HasType p f e t) : WellTyped p f (.expr e)
  /-- All parts make sense. -/
  | block {body : List Stmt} (parts : ∀ s ∈ body, WellTyped p f s) : WellTyped p f (.block body)

/-- The statements that contain a return. -/
inductive Stmt.Returns : Stmt → Prop where
  /-- A return. -/
  | ret (e : Expr) : Returns (.ret e)
  /-- A block with such a part. -/
  | block {body : List Stmt} {s : Stmt} (part : s ∈ body) (returns : Returns s) :
      Returns (.block body)

/-- Every function that the program defines has a body that makes sense in it and, if the function
has a result, contains a return. -/
def WellFormed (p : Program) : Prop :=
  ∀ f d, p.get? f = some d → d.isImport = false →
    ∃ body, d.body = some body ∧ WellTyped p f body ∧ (d.result ≠ .void → body.Returns)

end WasmForge

import WasmForge.Assembly.Lower
import WasmForge.Assembly.SlotLayout
import WasmForge.Module.Encode

/-!
# Assembling a body

An assembler collects the instructions of one body.  Instructions can be added one by one, each
checked as far as that is possible without its surroundings, or as the emission of a tree.  Locals
and functions stay handles until the body is finished: then touched locals get their slots, callees
their indices, and the body its bytes.
-/

namespace WasmForge

/-- A body that is being assembled. -/
structure Assembler where
  /-- The function whose body it is. -/
  scope : Scope
  /-- The instructions so far. -/
  code : List SymbolicInstr
  /-- The number of open constructs. -/
  depth : Nat

namespace Assembler

/-- The position of the declared local that an instruction touches. -/
def touchedVar? : SymbolicInstr → Option Nat
  | .op (.localGet ⟨_, .var i⟩) => some i
  | .op (.localSet ⟨_, .var i⟩) => some i
  | _ => none

/-- An empty body for a function that the program defines. -/
def start (p : Program) (f : FuncRef) : Except EmitError Assembler :=
  (Scope.enter p f).map fun scope => ⟨scope, [], 0⟩

/-- The error with the function's name in it. -/
def refuse {α : Type} (a : Assembler) (cause : String → LoweringError) : Except EmitError α :=
  .error (.lowering (cause a.scope.name))

/-! ## Adding instructions -/

/-- Adds an instruction without a check. -/
def append (a : Assembler) (i : SymbolicInstr) : Assembler := { a with code := a.code ++ [i] }

/-- Adds an instruction.  Locals must be the function's own, a branch may go as far out as the
function body, and only an open construct can be closed. -/
def push (a : Assembler) (i : SymbolicInstr) : Except EmitError Assembler :=
  match i with
  | .op (.localGet l) => do
    let _ ← a.scope.localType l
    return a.append i
  | .op (.localSet l) => do
    let _ ← a.scope.localType l
    return a.append i
  | .op (.br label) =>
    if label ≤ a.depth then .ok (a.append i) else a.refuse (.labelTooDeep label a.depth)
  | .op (.brIf label) =>
    if label ≤ a.depth then .ok (a.append i) else a.refuse (.labelTooDeep label a.depth)
  | .op _ => .ok (a.append i)
  | .block _ => .ok { a.append i with depth := a.depth + 1 }
  | .loop _ => .ok { a.append i with depth := a.depth + 1 }
  | .close =>
    if a.depth = 0 then a.refuse .nothingToClose
    else .ok { a.append i with depth := a.depth - 1 }

/-- Adds an emission, as far as it got. -/
def add {α : Type} (a : Assembler) (e : Emission α) : Assembler × Except EmitError α :=
  ({ a with code := a.code ++ e.code }, e.outcome)

/-- Adds the code of an expression. -/
def expr (a : Assembler) (e : Expr) : Assembler × Except EmitError ValueType :=
  a.add (a.scope.expr e)

/-- Adds the code of a statement. -/
def stmt (a : Assembler) (s : Stmt) : Assembler × Except EmitError Unit := a.add (a.scope.stmt s)

/-- Adds the code of statements, first to last. -/
def stmts (a : Assembler) (ss : List Stmt) : Assembler × Except EmitError Unit :=
  a.add (a.scope.stmts ss)

/-! ## Finishing -/

/-- The slots of the locals touched so far. -/
def layout (a : Assembler) : SlotLayout :=
  let touched := a.code.filterMap touchedVar?
  .of a.scope.decl.params.length a.scope.decl.locals touched.contains

/-- Puts a slot in place of a local. -/
def slot (layout : SlotLayout) (l : Local) : Except EmitError Nat :=
  match layout.slotOf? l.place with
  | some k => .ok k
  | none => .error (.lowering (.noSlot l.place))

/-- Puts an index in place of a function. -/
def index (numbering : Numbering) (f : FuncRef) : Except EmitError Nat :=
  (numbering.indexOf f).mapError .resolution

/-- The body with slots and indices in place of handles. -/
def link (a : Assembler) (numbering : Numbering) : Except EmitError Code := do
  let layout := a.layout
  let body ← a.code.mapM (Instr.rename (slot layout) (index numbering))
  return ⟨layout.localGroups, body ++ [.close]⟩

/-- The bytes of the body, with their number in front. -/
def finish (a : Assembler) (numbering : Numbering) : Except EmitError Bytes :=
  if a.depth = 0 then (a.link numbering).map fun code => Bytes.sized code.encode
  else a.refuse (.leftOpen a.depth)

end Assembler

/-- The bytes of a function's body as the declaration `d` gives it. -/
def Program.lower (p : Program) (f : FuncRef) (d : Declaration) (numbering : Numbering) :
    Except EmitError Bytes := do
  match d.body with
  | none => throw (.lowering (.noBody d.name))
  | some body =>
    let (a, outcome) := (← Assembler.start p f).stmt body
    outcome
    a.finish numbering

end WasmForge

import WasmForge.Machine.Value

/-!
# Cells of a call

A call keeps its values in a row of numbered cells: the constants that its code reads from cells,
its parameters and locals, temporaries, and copies of locals that were overwritten or may be while
their old value is still an operand.  An operand that is a constant or the value of a local needs no
temporary, arithmetic on constants is done in advance, and code that cannot be reached needs no
cells at all.

A plan is made by following the instructions of a body once, with the place of every operand in
hand.  Cells have numbers of 16 bits, so a body can need too many of them, and then there is no
plan.

* `CellPlan.step`: what one stream item does to the plan.
* `CellPlan.cells?`: the number of cells that a call of a body takes.
-/

namespace WasmForge

namespace CellPlan

/-- A bound on the numbers of the cells of locals, temporaries and copies. -/
def cellBound : Nat := 32766

/-- The greatest number of constants that have a cell. -/
def maxConstants : Nat := 32767

/-- The greatest number of operands below a construct. -/
def maxHeight : Nat := 65535

/-- Where an operand is found. -/
inductive Operand where
  /-- In the code. -/
  | constant (value : Value)
  /-- In a local. -/
  | inLocal (index : Nat)
  /-- In a temporary. -/
  | temporary
  /-- In a copy of a local. -/
  | copied (copy : Nat)
  deriving DecidableEq

/-- A construct that is still open, and that can be reached. -/
structure Construct where
  /-- Does a branch to it start it again? -/
  isLoop : Bool
  /-- The number of operands below it. -/
  height : Nat
  /-- The number of values that a branch to it carries. -/
  arity : Nat
  /-- Is there a branch to it? -/
  isTarget : Bool

/-- What a body can refer to. -/
structure Context where
  /-- The function types that constructs can name. -/
  types : List FuncType
  /-- The types of functions. -/
  funcType? : Nat → Option FuncType
  /-- The number of results of the function whose body it is. -/
  results : Nat

end CellPlan

/-- What is known of the cells of a call at some point of its body. -/
structure CellPlan where
  /-- The number of parameters and locals. -/
  locals : Nat
  /-- The operands, last pushed first. -/
  operands : List CellPlan.Operand
  /-- The number of operands in temporaries. -/
  temporaries : Nat
  /-- The greatest number of temporaries so far. -/
  mostTemporaries : Nat
  /-- The greatest number of copies so far. -/
  copies : Nat
  /-- The constants that have a cell, by their bits. -/
  constants : List UInt64
  /-- Can the next item be reached? -/
  reachable : Bool
  /-- The open constructs, innermost first; nothing is known of those that cannot be reached. -/
  constructs : List (Option CellPlan.Construct)

namespace CellPlan

/-- The plan before the first instruction. -/
def start (locals : Nat) : Option CellPlan :=
  if locals < cellBound then
    some {
      locals := locals
      operands := []
      temporaries := 0
      mostTemporaries := 0
      copies := 0
      constants := []
      reachable := true
      constructs := [] }
  else none

/-- The number of cells of a call that follows the plan to its end. -/
def size (p : CellPlan) : Nat :=
  p.constants.length + p.locals + p.mostTemporaries + p.copies

/-- The number of cells in use for locals, temporaries and copies. -/
def used (p : CellPlan) : Nat := p.locals + p.temporaries + p.copies

/-! ## Operands -/

/-- Pushes an operand that is in no temporary. -/
def push (p : CellPlan) (o : Operand) : CellPlan := { p with operands := o :: p.operands }

/-- Makes room for `n` more temporaries. -/
def withTemporaries (p : CellPlan) (n : Nat) : CellPlan :=
  { p with mostTemporaries := max p.mostTemporaries (p.temporaries + n) }

/-- Pushes an operand into a new temporary. -/
def pushTemporary (p : CellPlan) : Option CellPlan :=
  if p.used < cellBound then
    some { p.withTemporaries 1 with
      operands := .temporary :: p.operands
      temporaries := p.temporaries + 1 }
  else none

/-- Makes room for temporaries in a row. -/
def reserve (p : CellPlan) (n : Nat) : Option CellPlan :=
  if p.used + n < cellBound then some (p.withTemporaries n) else none

/-- Pushes operands into new temporaries in a row. -/
def pushTemporaries (p : CellPlan) (n : Nat) : Option CellPlan := do
  let p ← p.reserve n
  some { p with
    operands := List.replicate n .temporary ++ p.operands
    temporaries := p.temporaries + n }

/-- Pushes an operand that was popped. -/
def pushBack (p : CellPlan) : Operand → Option CellPlan
  | .temporary => p.pushTemporary
  | o => some (p.push o)

/-- Pops operands. -/
def popMany (p : CellPlan) (n : Nat) : CellPlan :=
  { p with
    operands := p.operands.drop n
    temporaries := p.temporaries - (p.operands.take n).count .temporary }

/-- Keeps the lowest operands only. -/
def truncate (p : CellPlan) (height : Nat) : CellPlan := p.popMany (p.operands.length - height)

/-! ## Constants -/

/-- Does an instruction that moves the constant hold it? -/
def isShort : Value → Bool
  | .i32 _ => true
  | .f32 _ => true
  | .i64 v => -0x8000_0000 ≤ v.toInt && v.toInt < 0x8000_0000
  | _ => false

/-- Gives a constant a cell. -/
def addConstant (p : CellPlan) (v : Value) : Option CellPlan :=
  if p.constants.contains v.bits then some p
  else if p.constants.length < maxConstants then
    some { p with constants := v.bits :: p.constants }
  else none

/-- Gives each constant among the operands a cell. -/
def addConstants (p : CellPlan) (os : List Operand) : Option CellPlan :=
  os.foldlM (fun p o => match o with
    | .constant v => p.addConstant v
    | _ => some p) p

/-- Moves the last `n` operands to where they are expected. -/
def move (p : CellPlan) (n : Nat) : Option CellPlan :=
  match p.operands.take n with
  | [.constant v] => if isShort v then some p else p.addConstant v
  | os => p.addConstants os

/-! ## Copies of locals -/

/-- A copy that no operand is in. -/
def freeCopy (p : CellPlan) : Nat :=
  ((List.range p.copies).find? fun k => !p.operands.contains (.copied k)).getD p.copies

/-- Copies a local if its value is an operand. -/
def copyLocal (p : CellPlan) (index : Nat) : Option CellPlan :=
  if p.operands.contains (.inLocal index) then
    let copy := p.freeCopy
    let copies := max p.copies (copy + 1)
    if p.locals + p.temporaries + copies ≤ cellBound then
      some { p with
        operands := p.operands.map fun o => if o = .inLocal index then .copied copy else o
        copies := copies }
    else none
  else some p

/-- Copies all locals whose values are operands. -/
def copyLocals (p : CellPlan) : Option CellPlan :=
  let indices := p.operands.filterMap fun o => match o with
    | .inLocal i => some i
    | _ => none
  indices.eraseDups.foldlM copyLocal p

/-! ## Arithmetic -/

/-- The result of combining an integer that is in a cell with a constant: the operand itself, a
constant, or a new temporary. -/
def withInt (p : CellPlan) (op : Arith) (o : Operand) (v : Int32) : Option CellPlan :=
  match op with
  | .add =>
    if v = 0 then p.pushBack o
    else if isImmediate then p.pushTemporary
    else p.addConstant (.i32 v) >>= pushTemporary
  | .mul =>
    if v = 0 then some (p.push (.constant (.i32 0)))
    else if v = 1 then p.pushBack o
    else if isImmediate then p.pushTemporary
    else p.addConstant (.i32 v) >>= pushTemporary
where
  /-- Does the instruction hold the constant? -/
  isImmediate : Bool := -0x8000 ≤ v.toInt && v.toInt < 0x8000

/-- The result of combining a single-precision number that is in a cell with a constant. -/
def withSingle (p : CellPlan) (v : Single) : Option CellPlan :=
  if v.isNaN then some (p.push (.constant (.f32 v)))
  else p.addConstant (.f32 v) >>= pushTemporary

variable [SingleArith]

/-- Combines the last two operands. -/
def arith (p : CellPlan) (op : Arith) : Option CellPlan :=
  let q := p.popMany 2
  match p.operands with
  | .constant (.i32 y) :: .constant (.i32 x) :: _ => some (q.push (.constant (.i32 (op.onInt x y))))
  | .constant (.f32 y) :: .constant (.f32 x) :: _ =>
    some (q.push (.constant (.f32 (op.onSingle x y))))
  | .constant (.i32 v) :: o :: _ => q.withInt op o v
  | o :: .constant (.i32 v) :: _ => q.withInt op o v
  | .constant (.f32 v) :: _ :: _ => q.withSingle v
  | _ :: .constant (.f32 v) :: _ => q.withSingle v
  | _ => q.pushTemporary

/-! ## Control -/

/-- Makes the next item out of reach. -/
def leave (p : CellPlan) : CellPlan := { p with reachable := false }

/-- Notes that there is a branch to the construct `label` levels out. -/
def markTarget (p : CellPlan) (label : Nat) : CellPlan :=
  { p with constructs := p.constructs.modify label (·.map ({ · with isTarget := true })) }

/-- Moves the values of a branch, which is a return if it leaves all constructs. -/
def branch (ctx : Context) (p : CellPlan) (label : Nat) : Option CellPlan :=
  match p.constructs[label]? with
  | some (some c) => (p.markTarget label).move c.arity
  | _ => p.move ctx.results

/-- Opens a construct that can be reached. -/
def openConstruct (ctx : Context) (p : CellPlan) (isLoop : Bool) (type : BlockType) :
    Option CellPlan := do
  let sig ← type.signature? ctx.types
  let params := sig.params.length
  if maxHeight < p.operands.length then none
  else if isLoop then
    let q ← p.move params
    let q ← (q.popMany params).pushTemporaries params
    let q ← q.copyLocals
    some { q with constructs := some ⟨true, q.operands.length - params, params, false⟩
      :: q.constructs }
  else
    let results := sig.results.length
    let q ← p.copyLocals
    let room ← (q.popMany params).reserve results
    some { q with
      mostTemporaries := room.mostTemporaries
      constructs := some ⟨false, q.operands.length - params, results, false⟩ :: q.constructs }

/-- Ends a construct that could be reached.  Where branches meet, the results are in temporaries. -/
def endConstruct (p : CellPlan) (c : Construct) : Option CellPlan :=
  if !c.isLoop && c.isTarget then do
    let p ← if p.reachable then p.move c.arity else some p
    let p ← Nat.repeat (· >>= pushTemporary) c.arity (some (p.truncate c.height))
    some { p with reachable := true }
  else some p

/-! ## Following a body -/

/-- What an instruction that is reached does to the plan. -/
def stepOp (ctx : Context) (p : CellPlan) : Op Nat Nat → Option CellPlan
  | .unreachable => some p.leave
  | .nop => some p
  | .br label => do some (← p.branch ctx label).leave
  | .brIf label =>
    let q := p.popMany 1
    match p.operands with
    | .constant (.i32 v) :: _ => if v = 0 then some q else do some (← q.branch ctx label).leave
    | _ => q.branch ctx label
  | .ret => do some (← p.move ctx.results).leave
  | .call f => do
    let type ← ctx.funcType? f
    let q ← p.addConstants (p.operands.take type.params.length)
    (q.popMany type.params.length).pushTemporaries type.results.length
  | .drop => some (p.popMany 1)
  | .localGet i => some (p.push (.inLocal i))
  | .localSet i =>
    let q := p.popMany 1
    match p.operands with
    | .inLocal j :: _ => if i = j then some q else q.copyLocal i
    | .constant v :: _ => do
      let q ← q.copyLocal i
      if isShort v then some q else q.addConstant v
    | _ => q.copyLocal i
  | .i32Const v => some (p.push (.constant (.i32 v)))
  | .i64Const v => some (p.push (.constant (.i64 v)))
  | .f32Const v => some (p.push (.constant (.f32 v)))
  | .f64Const v => some (p.push (.constant (.f64 v)))
  | .i32Arith op => p.arith op
  | .f32Arith op => p.arith op

/-- What a stream item does to the plan. -/
def step (ctx : Context) (p : CellPlan) : Instr Nat Nat → Option CellPlan
  | .op o => if p.reachable then p.stepOp ctx o else some p
  | .block type =>
    if p.reachable then p.openConstruct ctx false type
    else some { p with constructs := none :: p.constructs }
  | .loop type =>
    if p.reachable then p.openConstruct ctx true type
    else some { p with constructs := none :: p.constructs }
  | .close =>
    match p.constructs with
    | [] => if p.reachable then p.move ctx.results else some p
    | none :: rest => some { p with constructs := rest }
    | some c :: rest => { p with constructs := rest }.endConstruct c

/-- The number of cells that a call of a body with `locals` parameters and locals takes. -/
def cells? (ctx : Context) (locals : Nat) (body : List (Instr Nat Nat)) : Option Nat := do
  let p ← start locals
  return (← body.foldlM (step ctx) p).size

end CellPlan

end WasmForge

import WasmForge.Machine.Node
import WasmForge.Machine.Run
import WasmForge.Machine.Value

/-!
# Executing structured code

Code is executed by recursion on its structure.  What a call does is a parameter here; it is tied to
the functions of a module in `WasmForge.Machine.Instance`.  A loop is a bounded repetition of its
body, with a bound that no run comes near.

* `Exit`: how a stretch of code ends.
* `Machine.run`, `Machine.runAll`: the execution of a node and of a list of nodes.
* `Machine.runBody`: the execution of a function body.
-/

namespace WasmForge

/-- Locals and operands of a call. -/
structure Activation where
  /-- The locals. -/
  locals : List Value
  /-- The operands, last pushed first. -/
  stack : List Value

/-- How a stretch of code ends. -/
inductive Exit where
  /-- At its end. -/
  | next (a : Activation)
  /-- With a branch to the construct `label` levels out. -/
  | branch (label : Nat) (a : Activation)
  /-- With a return. -/
  | ret (a : Activation)

namespace Activation

/-- Pushes a value. -/
def push (a : Activation) (v : Value) : Activation := { a with stack := v :: a.stack }

/-- Pushes values, first to last. -/
def pushAll (a : Activation) (vs : List Value) : Activation :=
  { a with stack := vs.reverse ++ a.stack }

/-- An activation for the body of a construct: the last `arity` operands. -/
def enter (a : Activation) (arity : Nat) : Activation := { a with stack := a.stack.take arity }

/-- The activation after a construct that took `params` operands: the operands below them, and the
last `results` operands of `inner` on top. -/
def leave (a inner : Activation) (params results : Nat) : Activation :=
  { inner with stack := inner.stack.take results ++ a.stack.drop params }

/-- Takes the last `n` operands off, first to last. -/
def popAll (a : Activation) (n : Nat) : Option (List Value × Activation) :=
  if n ≤ a.stack.length then
    some ((a.stack.take n).reverse, { a with stack := a.stack.drop n })
  else none

end Activation

namespace Machine

variable {σ : Type} [SingleArith]

/-- What a call of a function does: how many arguments it takes, and its run on them. -/
structure Callee (σ : Type) where
  /-- The number of arguments. -/
  arity : Nat
  /-- The run on arguments, with the results. -/
  enter : List Value → Run σ (List Value)

/-- Executes an instruction. -/
def runOp (callee : Nat → Option (Callee σ)) (a : Activation) : Op Nat Nat → Run σ Exit
  | .unreachable => throw .unreachable
  | .nop => return .next a
  | .br label => return .branch label a
  | .brIf label =>
    match a.stack with
    | .i32 v :: rest =>
      let a := { a with stack := rest }
      return if v = 0 then .next a else .branch label a
    | _ => throw .illTyped
  | .ret => return .ret a
  | .call f =>
    match callee f with
    | none => throw .illTyped
    | some c =>
      match a.popAll c.arity with
      | none => throw .illTyped
      | some (args, a) => do
        let results ← c.enter args
        return .next (a.pushAll results)
  | .drop =>
    match a.stack with
    | _ :: rest => return .next { a with stack := rest }
    | [] => throw .illTyped
  | .localGet i =>
    match a.locals[i]? with
    | some v => return .next (a.push v)
    | none => throw .illTyped
  | .localSet i =>
    match a.stack with
    | v :: rest => return .next { locals := a.locals.set i v, stack := rest }
    | [] => throw .illTyped
  | .i32Const v => return .next (a.push (.i32 v))
  | .i64Const v => return .next (a.push (.i64 v))
  | .f32Const v => return .next (a.push (.f32 v))
  | .f64Const v => return .next (a.push (.f64 v))
  | .i32Arith op =>
    match a.stack with
    | .i32 y :: .i32 x :: rest => return .next { a with stack := .i32 (op.onInt x y) :: rest }
    | _ => throw .illTyped
  | .f32Arith op =>
    match a.stack with
    | .f32 y :: .f32 x :: rest => return .next { a with stack := .f32 (op.onSingle x y) :: rest }
    | _ => throw .illTyped

/-- The greatest number of turns of a loop. -/
def maxTurns : Nat := 0x1_0000_0000_0000

/-- Repeats the body of a loop with `params` operands for as long as it ends with a branch to the
loop. -/
def turns (params : Nat) (body : Activation → Run σ Exit) : (left : Nat) → Activation → Run σ Exit
  | 0, _ => throw .loopTurns
  | left + 1, a => do
    match ← body a with
    | .branch 0 a => turns params body left (a.enter params)
    | exit => return exit

/-- What the end of a construct's body means outside of it.  `before` is the activation before the
construct, which takes `params` operands and leaves `results`. -/
def exitConstruct (before : Activation) (params results : Nat) : Exit → Exit
  | .next a => .next (before.leave a params results)
  | .branch 0 a => .next (before.leave a params results)
  | .branch (label + 1) a => .branch label a
  | .ret a => .ret a

mutual

/-- Executes a node. -/
def run (callee : Nat → Option (Callee σ)) : Node → Activation → Run σ Exit
  | .op o, a => runOp callee a o
  | .block params results body, a => do
    let exit ← runAll callee body (a.enter params)
    return exitConstruct a params results exit
  | .loop params results body, a => do
    let exit ← turns params (runAll callee body) maxTurns (a.enter params)
    return exitConstruct a params results exit

/-- Executes nodes, first to last. -/
def runAll (callee : Nat → Option (Callee σ)) : List Node → Activation → Run σ Exit
  | [], a => return .next a
  | node :: rest, a => do
    match ← run callee node a with
    | .next a => runAll callee rest a
    | exit => return exit

end

/-- Executes a function body with the given locals; `arity` is the number of results. -/
def runBody (callee : Nat → Option (Callee σ)) (arity : Nat) (body : List Node)
    (locals : List Value) : Run σ (List Value) := do
  let last := match ← runAll callee body ⟨locals, []⟩ with
    | .next a => a
    | .branch _ a => a
    | .ret a => a
  match last.popAll arity with
  | some (results, _) => return results
  | none => throw .illTyped

end Machine

end WasmForge

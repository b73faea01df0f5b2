import WasmForge.Module.Basic

/-!
# Structured code

For execution, the flat instruction stream becomes a tree in which a construct holds its body and
the numbers of its operands and results.  `Node.ofBody?` undoes the flattening; it succeeds exactly
on streams whose constructs have a type and are closed, and whose last item closes the function.
-/

namespace WasmForge

/-- An instruction of structured code. -/
inductive Node where
  /-- An instruction of one step. -/
  | op (o : Op Nat Nat)
  /-- A construct that a branch leaves. -/
  | block (params results : Nat) (body : List Node)
  /-- A construct that a branch starts again. -/
  | loop (params results : Nat) (body : List Node)

namespace Node

/-- A construct that is still open: how to make it, and what came before it, last first. -/
structure Open where
  /-- Makes the construct from its body. -/
  make : List Node → Node
  /-- The nodes before it in its surroundings, last first. -/
  before : List Node

/-- The state of the reader: the nodes of the innermost construct, last first, and the constructs
around it.  After the function is closed there is nothing more to come. -/
inductive Builder where
  /-- In a body. -/
  | inside (nodes : List Node) (around : List Open)
  /-- After the function. -/
  | closed (body : List Node)

/-- One stream item, in a module with the given function types. -/
def Builder.step (types : List FuncType) : Builder → Instr Nat Nat → Option Builder
  | .closed _, _ => none
  | .inside nodes around, .op o => some (.inside (.op o :: nodes) around)
  | .inside nodes around, .block type => do
    let sig ← type.signature? types
    some (.inside [] (⟨.block sig.params.length sig.results.length, nodes⟩ :: around))
  | .inside nodes around, .loop type => do
    let sig ← type.signature? types
    some (.inside [] (⟨.loop sig.params.length sig.results.length, nodes⟩ :: around))
  | .inside nodes [], .close => some (.closed nodes.reverse)
  | .inside nodes (o :: around), .close => some (.inside (o.make nodes.reverse :: o.before) around)

/-- The structured form of a body, in a module with the given function types. -/
def ofBody? (types : List FuncType) (body : List (Instr Nat Nat)) : Option (List Node) :=
  match body.foldlM (Builder.step types) (.inside [] []) with
  | some (.closed nodes) => some nodes
  | _ => none

end Node

end WasmForge

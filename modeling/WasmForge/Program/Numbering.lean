import WasmForge.Program.Arena

/-!
# Function numbering

In a module, functions are numbered.  A numbering puts every declaration of a program at exactly one
index.  It is drawn up in a draft, which gives out the next free index to one handle after the
other; `Program.number` draws up the usual one: imports, then internal functions, then exports, each
in declaration order.
-/

namespace WasmForge

/-- What can be wrong with a numbering or with its use. -/
inductive NumberingError where
  /-- The handle names no declaration of the numbered program. -/
  | notRegistered (index : Nat)
  /-- The handle has an index already. -/
  | alreadyResolved (index existing : Nat)
  /-- The draft ends without an index for this declaration. -/
  | neverAssigned (index : Nat)
  /-- The numbering is of another program. -/
  | otherProgram (numbered given : Nat)
  /-- The program has grown since it was numbered. -/
  | otherSize (numbered declared : Nat)
  /-- An import has an index above a defined function. -/
  | importAfterDefined (name : String) (index : Nat)
  /-- A call in `function` names no declaration of the program. -/
  | unregisteredCall (index : Nat) (function : String)
  deriving DecidableEq

/-- The wording of an error. -/
def NumberingError.message : NumberingError → String
  | notRegistered i => s!"function #{i} is not registered in this program"
  | alreadyResolved i e => s!"function #{i} already resolved to index {e}"
  | neverAssigned i => s!"function #{i} was never assigned an index"
  | otherProgram x y => s!"resolution was computed for program {x}, not program {y}"
  | otherSize n m => s!"resolution covers {n} function(s), program declares {m}"
  | importAfterDefined n i =>
    s!"import `{n}` resolved to index {i} after module-defined functions"
  | unregisteredCall i f => s!"call to unregistered function #{i} in `{f}`"

/-- A numbering of the functions of a program. -/
structure Numbering where
  /-- The identity of the program. -/
  program : Nat
  /-- Positions of the declarations, by function index. -/
  order : Array Nat
  deriving DecidableEq

namespace Numbering

/-- The number of functions. -/
def size (n : Numbering) : Nat := n.order.size

/-- The handles, by function index. -/
def refs (n : Numbering) : List FuncRef := n.order.toList.map fun i => ⟨n.program, i⟩

/-- The index of the function that a handle names. -/
def indexOf? (n : Numbering) (f : FuncRef) : Option Nat :=
  if f.program = n.program then n.order.idxOf? f.index else none

/-- The index of the function that a handle names, or the error that it has none. -/
def indexOf (n : Numbering) (f : FuncRef) : Except NumberingError Nat :=
  match n.indexOf? f with
  | some i => .ok i
  | none => .error (.notRegistered f.index)

/-- A numbering that is being drawn up. -/
structure Draft where
  /-- The identity of the program. -/
  program : Nat
  /-- The number of declarations to number. -/
  size : Nat
  /-- Positions of the declarations numbered so far, by function index. -/
  order : Array Nat
  deriving DecidableEq

namespace Draft

/-- The draft for a program, with nothing numbered. -/
def ofProgram (p : Program) : Draft := ⟨p.id, p.size, #[]⟩

/-- Does the handle name a declaration that the draft is to number? -/
def covers (d : Draft) (f : FuncRef) : Bool := f.program == d.program && f.index < d.size

/-- Gives the next free index to a handle. -/
def assign (d : Draft) (f : FuncRef) : Except NumberingError (Draft × Nat) :=
  if d.covers f then
    match d.order.idxOf? f.index with
    | some e => .error (.alreadyResolved f.index e)
    | none => .ok ({ d with order := d.order.push f.index }, d.order.size)
  else .error (.notRegistered f.index)

/-- Ends the draft; every declaration must have an index. -/
def finish (d : Draft) : Except NumberingError Numbering :=
  match (List.range d.size).find? (!d.order.contains ·) with
  | some i => .error (.neverAssigned i)
  | none => .ok ⟨d.program, d.order⟩

/-- Gives the next free indices to handles, first to last. -/
def assignAll (d : Draft) (fs : List FuncRef) : Except NumberingError Draft :=
  fs.foldlM (fun d f => (d.assign f).map (·.1)) d

end Draft

end Numbering

namespace Program

/-- The handles whose declarations satisfy a condition, in declaration order. -/
def refsWhere (p : Program) (test : Declaration → Bool) : List FuncRef :=
  p.refs.filter fun f => (p.get? f).any test

/-- Numbers imports first, then internal functions, then exports. -/
def number (p : Program) : Except NumberingError Numbering := do
  let draft ← (Numbering.Draft.ofProgram p).assignAll
    (p.refsWhere (·.isImport)
      ++ p.refsWhere (·.linkage == .internal)
      ++ p.refsWhere (·.isExport))
  draft.finish

end Program

end WasmForge

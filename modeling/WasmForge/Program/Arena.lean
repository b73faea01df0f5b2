import WasmForge.Program.Tree

/-!
# Programs

A program is an identity and a growing list of function declarations.  Declaring a function hands
out its handle; a handle keeps its meaning, because declarations are never removed or reordered and
only their locals and bodies are added to.

* `Program.declare` checks a declaration and adds it.
* `Program.param`, `Program.addLocal` hand out local handles.
* `Program.define` gives a function its body, once.
* `DeclareError` lists what can be wrong, with the wording in `DeclareError.message`.

An operation that fails returns no program, so the old one is all there is.
-/

namespace WasmForge

/-! ## Declarations -/

/-- A parameter of a function. -/
structure Param where
  /-- Its type. -/
  type : ValueType
  /-- Its name, for the loader script and for messages. -/
  name : String
  deriving DecidableEq

/-- Where a function comes from and who can see it. -/
inductive Linkage where
  /-- Provided by the host; the code is the body of the host's function. -/
  | imported (hostCode : String)
  /-- Defined here and visible only here. -/
  | internal
  /-- Defined here and visible to the host. -/
  | exported
  deriving DecidableEq

namespace Linkage

/-- The word for the linkage. -/
def label : Linkage → String
  | imported _ => "import"
  | internal => "internal"
  | exported => "export"

/-- Is the function provided by the host? -/
def isImport : Linkage → Bool
  | imported _ => true
  | _ => false

/-- The host's code of an imported function. -/
def hostCode? : Linkage → Option String
  | imported code => some code
  | _ => none

end Linkage

/-- A function declaration. -/
structure Declaration where
  /-- Its name; the host sees the names of imports and exports. -/
  name : String
  /-- Its parameters. -/
  params : List Param
  /-- The type of its result. -/
  result : ValueType
  /-- Its linkage. -/
  linkage : Linkage
  /-- Types of the locals declared so far. -/
  locals : List ValueType := []
  /-- Its body, once defined. -/
  body : Option Stmt := none
  deriving BEq

namespace Declaration

/-- Is the function provided by the host? -/
def isImport (d : Declaration) : Bool := d.linkage.isImport

/-- Is the function visible to the host? -/
def isExport (d : Declaration) : Bool := d.linkage == .exported

/-- The type of the local at a place. -/
def localType? (d : Declaration) : Place → Option ValueType
  | .param i => d.params[i]?.map (·.type)
  | .var i => d.locals[i]?

/-- The function's type at run time. -/
def funcType (d : Declaration) : FuncType :=
  ⟨d.params.filterMap (·.type.valType?), d.result.valType?.toList⟩

end Declaration

/-! ## Errors -/

/-- What can be wrong with a declaration. -/
inductive DeclareError where
  /-- A parameter or local (`role` says which) would hold no value. -/
  | unsupportedType (type : ValueType) (role function : String)
  /-- The handle names no declaration of the program. -/
  | unknownFunction (index : Nat)
  /-- An import cannot have a body. -/
  | bodyOnImport (function : String)
  /-- The function has a body already. -/
  | bodyRedefined (function : String)
  /-- The function has no parameter at that position. -/
  | noSuchParam (function : String) (index : Nat)
  /-- The name cannot be shown to the host. -/
  | invalidName (name : String)
  /-- Two exports would have the same name. -/
  | duplicateExport (name : String)
  /-- Two imports would have the same name. -/
  | duplicateImport (name : String)
  deriving DecidableEq

/-- The wording of an error. -/
def DeclareError.message : DeclareError → String
  | unsupportedType type role function =>
    s!"unsupported value type `{type.shown}` for {role} in `{function}`"
  | unknownFunction index => s!"unknown function declaration #{index}"
  | bodyOnImport function => s!"imported function `{function}` cannot have a body"
  | bodyRedefined function => s!"function `{function}` already has a body"
  | noSuchParam function index => s!"function `{function}` has no parameter {index}"
  | invalidName name => s!"name `{name}` must be non-empty ASCII"
  | duplicateExport name => s!"export name `{name}` is already in use"
  | duplicateImport name => s!"import name `{name}` is already in use"

/-! ## Programs -/

/-- A program: its identity and its declarations. -/
structure Program where
  /-- Tells programs apart. -/
  id : Nat
  /-- Declarations by position. -/
  decls : Array Declaration
  deriving BEq

namespace Program

/-- A program with no declarations. -/
def empty (id : Nat) : Program := ⟨id, #[]⟩

/-- The number of declarations. -/
def size (p : Program) : Nat := p.decls.size

/-- The declaration that a handle names. -/
def get? (p : Program) (f : FuncRef) : Option Declaration :=
  if f.program = p.id then p.decls[f.index]? else none

/-- Does the handle name a declaration of this program? -/
def owns (p : Program) (f : FuncRef) : Bool := (p.get? f).isSome

/-- The type of a local, if its handle means anything here. -/
def localType? (p : Program) (l : Local) : Option ValueType :=
  (p.get? l.owner).bind (·.localType? l.place)

/-- The handle of the declaration at a position. -/
def ref (p : Program) (index : Nat) : FuncRef := ⟨p.id, index⟩

/-- All handles of the program, in declaration order. -/
def refs (p : Program) : List FuncRef := (List.range p.size).map p.ref

/-- The declaration that a handle names, or the error that it names none. -/
def lookup (p : Program) (f : FuncRef) : Except DeclareError Declaration :=
  match p.get? f with
  | some d => .ok d
  | none => .error (.unknownFunction f.index)

/-- Replaces the declaration that a handle names. -/
def set (p : Program) (f : FuncRef) (d : Declaration) : Program :=
  { p with decls := p.decls.setIfInBounds f.index d }

/-! ### Declaring -/

/-- Can the host see a function by this name? -/
def isHostName (name : String) : Bool := !name.isEmpty && name.toList.all (·.val < 128)

/-- Is there an export with this name? -/
def hasExport (p : Program) (name : String) : Bool :=
  p.decls.any fun d => d.isExport && d.name == name

/-- Is there an import with this name? -/
def hasImport (p : Program) (name : String) : Bool :=
  p.decls.any fun d => d.isImport && d.name == name

/-- Checks the name of a new declaration against the program.  Names of internal functions are
free. -/
def checkName (p : Program) (d : Declaration) : Except DeclareError Unit :=
  match d.linkage with
  | .internal => .ok ()
  | .exported =>
    if !isHostName d.name then .error (.invalidName d.name)
    else if p.hasExport d.name then .error (.duplicateExport d.name)
    else .ok ()
  | .imported _ =>
    if !isHostName d.name then .error (.invalidName d.name)
    else if p.hasImport d.name then .error (.duplicateImport d.name)
    else .ok ()

/-- Checks that all parameters hold values. -/
def checkParams (d : Declaration) : Except DeclareError Unit :=
  match d.params.find? (!·.type.isStorable) with
  | some q => .error (.unsupportedType q.type "parameter" d.name)
  | none => .ok ()

/-- The program with one more declaration. -/
def add (p : Program) (d : Declaration) : Program := { p with decls := p.decls.push d }

/-- Adds a declaration and hands out its handle. -/
def declare (p : Program) (name : String) (params : List Param) (result : ValueType)
    (linkage : Linkage) : Except DeclareError (Program × FuncRef) := do
  let d : Declaration := { name, params, result, linkage }
  p.checkName d
  checkParams d
  return (p.add d, p.ref p.size)

/-! ### Locals and bodies -/

/-- The handle of a parameter. -/
def param (p : Program) (f : FuncRef) (index : Nat) : Except DeclareError Local := do
  let d ← p.lookup f
  if index < d.params.length then .ok ⟨f, .param index⟩ else .error (.noSuchParam d.name index)

/-- Declares a local and hands out its handle. -/
def addLocal (p : Program) (f : FuncRef) (type : ValueType) :
    Except DeclareError (Program × Local) := do
  let d ← p.lookup f
  if type.isStorable then
    .ok (p.set f { d with locals := d.locals ++ [type] }, ⟨f, .var d.locals.length⟩)
  else .error (.unsupportedType type "local" d.name)

/-- Gives a function its body. -/
def define (p : Program) (f : FuncRef) (body : Stmt) : Except DeclareError Program := do
  let d ← p.lookup f
  if d.isImport then .error (.bodyOnImport d.name)
  else if d.body.isSome then .error (.bodyRedefined d.name)
  else .ok (p.set f { d with body := some body })

/-! ### What handles name -/

theorem get?_ref (p : Program) (i : Nat) : p.get? (p.ref i) = p.decls[i]? := by
  simp [get?, ref]

theorem get?_eq_some {p : Program} {f : FuncRef} {d : Declaration} :
    p.get? f = some d ↔ f.program = p.id ∧ p.decls[f.index]? = some d := by
  unfold get?
  split <;> simp_all

/-- A handle means something exactly when it is of the program and in range. -/
theorem owns_iff {p : Program} {f : FuncRef} :
    p.owns f = true ↔ f.program = p.id ∧ f.index < p.size := by
  unfold owns get? size
  split <;> simp_all

/-- The handle of a new declaration names it. -/
theorem get?_add_self (p : Program) (d : Declaration) : (p.add d).get? (p.ref p.size) = some d := by
  simp [get?, add, ref, size]

/-- Handles keep their meaning when a declaration is added. -/
theorem get?_add_of_owns {p : Program} {f : FuncRef} {d e : Declaration} (h : p.get? f = some d) :
    (p.add e).get? f = some d := by
  obtain ⟨own, found⟩ := get?_eq_some.1 h
  obtain ⟨lt, -⟩ := Array.getElem?_eq_some_iff.1 found
  refine get?_eq_some.2 ⟨own, ?_⟩
  rw [add, Array.getElem?_push_lt lt, ← found]
  exact (Array.getElem?_eq_getElem lt).symm

/-- A replaced declaration is what its handle names. -/
theorem get?_set_self {p : Program} {f : FuncRef} {d : Declaration} (e : Declaration)
    (h : p.get? f = some d) : (p.set f e).get? f = some e := by
  obtain ⟨own, found⟩ := get?_eq_some.1 h
  obtain ⟨lt, -⟩ := Array.getElem?_eq_some_iff.1 found
  exact get?_eq_some.2 ⟨own, by simp [set, lt]⟩

/-- Other handles do not see a replacement. -/
theorem get?_set_of_index_ne {p : Program} {f g : FuncRef} (e : Declaration)
    (h : g.index ≠ f.index) : (p.set f e).get? g = p.get? g := by
  simp [get?, set, h.symm]

end Program

end WasmForge

import Mathlib
import WasmForge.Proofs.Acceptance
import WasmForge.Proofs.Assembling

/-!
# Stack discipline

Trees can be added to a body at any point: in constructs that are open, on a stack that holds
something, after a return.  Wherever that is, the code of an expression leaves its value on top and
takes nothing off the stack that it did not push itself.  The code of a statement leaves the stack
as it was, or, if there is a return in it, makes the rest of the construct unreachable.  Code that a
failure cut short is added as well, but opens and closes nothing.

* `Typing.Pushes`: code that only takes what it pushed.
* `Assembler.Describes`: a context in which code can be checked, by handles or by numbers.
* `Assembler.Adds`: what is added to a body, and that the finished body describes it.
* `Program.lowering_keeps_stack`: the code of trees, wherever it is added.
-/

namespace WasmForge

namespace Typing

variable {L F L' F' : Type} {ctx : Context L F} {ctx' : Context L' F'}

/-- The construct with an empty stack, in reach. -/
def Frame.bare (f : Frame) : Frame := { f with operands := [], unreachable := false }

/-- From this state the code is well typed and pushes operands of the types `ts`.  Every instruction
takes its operands from those that the code pushed before it: it is well typed, with the same
effect, where they are all that there is and none can be missing. -/
structure Pushes (ctx : Context L F) (fr : Frame) (outer : List Frame) (code : List (Instr L F))
    (ts : List ValType) : Prop where
  /-- What the code leaves. -/
  whole : steps ctx (fr :: outer) code = some (fr.pushAll ts :: outer)
  /-- What each instruction takes and leaves. -/
  above : ∀ before i after, code = before ++ i :: after → ∃ us vs,
    steps ctx (fr :: outer) before = some (fr.pushAll us :: outer) ∧
    step ctx (fr.pushAll us :: outer) i = some (fr.pushAll vs :: outer) ∧
    step ctx (fr.bare.pushAll us :: outer) i = some (fr.bare.pushAll vs :: outer)

theorem Grows.pushes {code : List (Instr L F)} {ts : List ValType} (grows : Grows ctx code ts)
    (fr : Frame) (outer : List Frame) : Pushes ctx fr outer code ts := by
  refine ⟨grows.whole fr outer, ?_⟩
  rintro before i after rfl
  obtain ⟨us, first⟩ := grows.parts before (List.prefix_append _ _)
  obtain ⟨vs, next⟩ := grows.parts (before ++ [i]) (by simp)
  have one : ∀ fr : Frame, step ctx (fr.pushAll us :: outer) i = some (fr.pushAll vs :: outer) := by
    intro fr
    have both := next fr outer
    rw [steps_append, first, Option.bind_some] at both
    simpa [steps] using both
  exact ⟨us, vs, first fr outer, one fr, one fr.bare⟩

/-- Other names for locals and functions change nothing, if they have the same types. -/
theorem Grows.relabel {code : List (Instr L F)} {ts : List ValType} {s : L → L'} {g : F → F'}
    (grows : Grows ctx code ts) (agree : ∀ i ∈ code, Agree ctx ctx' s g i)
    (types : ctx'.types = ctx.types) (results : ctx'.results = ctx.results) :
    Grows ctx' (code.map (Instr.relabel s g)) ts := by
  constructor
  · intro fr outer
    rw [steps_relabel agree types results, grows.whole]
  · intro part within
    obtain ⟨rest, split⟩ := within
    obtain ⟨c, d, rfl, rfl, -⟩ := List.map_eq_append_iff.1 split.symm
    obtain ⟨us, pushes⟩ := grows.parts c (List.prefix_append c d)
    refine ⟨us, ?_⟩
    intro fr outer
    rw [steps_relabel (fun i mem => agree i (List.mem_append_left d mem)) types results, pushes]

end Typing

namespace Assembler

open Typing

variable {a : Assembler} {L F : Type}

/-- The context gives the names that stand for the locals and functions in the code the types that
these have in the program, and a return the type that the function declares. -/
structure Describes (a : Assembler) (code : List SymbolicInstr) (slot : Local → L)
    (index : FuncRef → F) (ctx : Context L F) : Prop where
  /-- The locals. -/
  locals : ∀ i ∈ code, ∀ l ∈ i.local?,
    ctx.localType? (slot l) = (a.scope.program.localType? l).bind ValueType.valType?
  /-- The functions. -/
  functions : ∀ i ∈ code, ∀ g ∈ i.callee?,
    ctx.funcType? (index g) = (a.scope.program.get? g).map (·.funcType)
  /-- The result. -/
  results : ctx.results = a.scope.decl.result.valType?.toList

theorem describes_iff {code : List SymbolicInstr} {slot : Local → L} {index : FuncRef → F}
    {ctx : Context L F} :
    a.Describes code slot index ctx ↔
      (∀ i ∈ code, Agree (a.scope.context ctx.types) ctx slot index i) ∧
        ctx.results = (a.scope.context ctx.types).results := by
  constructor
  · intro describes
    exact ⟨fun i mem => ⟨describes.locals i mem, describes.functions i mem⟩, describes.results⟩
  · rintro ⟨agree, results⟩
    exact ⟨fun i mem => (agree i mem).locals, fun i mem => (agree i mem).functions, results⟩

/-- The code stands behind what was in the body, and opens and closes nothing.  Whatever else is
added before the body is finished, the context in which the finished body is checked describes the
code, by slots and indices. -/
structure Adds (a : Assembler) (code : List SymbolicInstr) (b : Assembler) : Prop where
  /-- The function is the same. -/
  scope : b.scope = a.scope
  /-- What was there comes first. -/
  behind : b.code = a.code ++ code
  /-- The number of open constructs is the same. -/
  depth : b.depth = a.depth
  /-- The code neither opens nor closes a construct. -/
  straight : ∀ depth, nesting depth code = some depth
  /-- In a finished body. -/
  finished : ∀ (more : List Command) (n : Numbering) (types functions : List FuncType),
    (∀ g d, a.scope.program.get? g = some d → functions[n.number g]? = some d.funcType) →
      a.Describes code (b.run more).layout.slot n.number
        ((b.run more).linkedContext types functions)

theorem code_prefix_perform (a : Assembler) (c : Command) : a.code <+: (a.perform c).1.code := by
  rcases a.perform_cases c with ⟨i, b, -, pushed, done⟩ | ⟨i, e, -, -, done⟩ | ⟨code, -, -, done⟩
  · obtain ⟨-, -, k, -, rfl⟩ := push_eq_ok.1 pushed
    rw [done]
    exact List.prefix_append ..
  · rw [done]
  · rw [done]
    exact List.prefix_append ..

/-- What is in a body stays there. -/
theorem code_prefix_run (a : Assembler) (commands : List Command) :
    a.code <+: (a.run commands).code := by
  induction commands generalizing a with
  | nil => exact List.prefix_rfl
  | cons c commands ih => exact (code_prefix_perform a c).trans (ih _)

variable (known : a.scope.program.get? a.scope.func = some a.scope.decl)
  (tidy : a.scope.decl.Tidy)

include known tidy

/-- An emission of instructions that the function knows is added in this way, also if it fails. -/
theorem adds_add {α : Type} {x : Emission α} (within : a.scope.Within x) :
    a.Adds x.code (a.add x).1 := by
  refine ⟨rfl, rfl, rfl, ?_, ?_⟩
  · intro depth
    refine nesting_ops depth ?_
    intro i mem
    obtain ⟨o, rfl, -⟩ := (within i mem).straight
    exact ⟨o, rfl⟩
  · intro more n types functions indexed
    have scope : ((a.add x).1.run more).scope = a.scope := scope_run (a.add x).1 more
    have stays : a.code ++ x.code <+: ((a.add x).1.run more).code :=
      code_prefix_run (a.add x).1 more
    generalize (a.add x).1.run more = b at scope stays
    rw [← scope] at known tidy indexed within
    rw [describes_iff, ← scope]
    refine ⟨?_, rfl⟩
    intro i mem
    have present : i ∈ b.code := stays.subset (List.mem_append_right _ mem)
    exact agree_of_knows known tidy indexed present (within i mem)

/-- The code of an expression, in every context that describes it. -/
theorem pushes_expr {e : Expr} {t : ValueType} (ok : (a.expr e).2 = .ok t) {slot : Local → L}
    {index : FuncRef → F} {ctx : Context L F}
    (describes : a.Describes (a.scope.expr e).code slot index ctx) (fr : Frame)
    (outer : List Frame) :
    Pushes ctx fr outer ((a.scope.expr e).code.map (Instr.relabel slot index))
      t.valType?.toList := by
  have typed := (Scope.expr_eq_ok known e t).1 ok
  obtain ⟨agree, results⟩ := describes_iff.1 describes
  have grows : Grows (a.scope.context ctx.types) (a.scope.expr e).code t.valType?.toList :=
    Scope.grows_expr known tidy.storable typed
  exact (grows.relabel agree rfl results).pushes fr outer

/-- The code of a statement, in every context that describes it. -/
theorem steps_stmt {c : Stmt} (ok : (a.stmt c).2 = .ok ()) {slot : Local → L}
    {index : FuncRef → F} {ctx : Context L F}
    (describes : a.Describes (a.scope.stmt c).code slot index ctx) (fr : Frame)
    (outer : List Frame) :
    ∃ fr', steps ctx (fr :: outer) ((a.scope.stmt c).code.map (Instr.relabel slot index)) =
        some (fr' :: outer) ∧ Frame.After c.Returns fr fr' := by
  have typed := (Scope.stmt_eq_ok known c).1 ok
  obtain ⟨agree, results⟩ := describes_iff.1 describes
  rw [steps_relabel agree rfl results]
  exact Scope.steps_stmt known tidy.storable typed fr outer

end Assembler

open Assembler Typing in
/-- Whatever was assembled before, the code of an expression is added behind it, and in every
context that describes the code it pushes a value of the type of the expression, or nothing, on any
stack, and takes nothing that it did not push.  The code of a statement leaves any stack as it was,
or, if there is a return in the statement, the construct unreachable and its stack empty. -/
theorem Program.lowering_keeps_stack {p : Program} (built : p.Built) {f : FuncRef}
    {first : Assembler} (started : Assembler.start p f = .ok first) (commands : List Command) :
    let a := first.run commands
    (∀ e, ∃ code, a.Adds code (a.expr e).1 ∧
      ∀ t, (a.expr e).2 = .ok t →
        ∀ (L F : Type) (slot : Local → L) (index : FuncRef → F) (ctx : Context L F),
          a.Describes code slot index ctx → ∀ fr outer,
            Pushes ctx fr outer (code.map (Instr.relabel slot index)) t.valType?.toList) ∧
    (∀ c, ∃ code, a.Adds code (a.stmt c).1 ∧
      ((a.stmt c).2 = .ok () →
        ∀ (L F : Type) (slot : Local → L) (index : FuncRef → F) (ctx : Context L F),
          a.Describes code slot index ctx → ∀ fr outer,
            (¬c.Returns → steps ctx (fr :: outer) (code.map (Instr.relabel slot index)) =
              some (fr :: outer)) ∧
            (c.Returns → steps ctx (fr :: outer) (code.map (Instr.relabel slot index)) =
              some (fr.leave :: outer)))) := by
  intro a
  have known : a.scope.program.get? a.scope.func = some a.scope.decl := by
    rw [scope_run]
    obtain ⟨d, declared, -, rfl⟩ := start_eq_ok.1 started
    exact declared
  have tidy : a.scope.decl.Tidy := tidy_run built started commands
  constructor
  · intro e
    refine ⟨_, adds_add known tidy (Scope.within_expr e), ?_⟩
    intro t ok L F slot index ctx describes fr outer
    exact pushes_expr known tidy ok describes fr outer
  · intro c
    refine ⟨_, adds_add known tidy (Scope.within_stmt c), ?_⟩
    intro ok L F slot index ctx describes fr outer
    obtain ⟨fr', run, after⟩ := Assembler.steps_stmt known tidy ok describes fr outer
    constructor
    · intro none
      rw [run, after.kept none]
    · intro returns
      rw [run, after.left returns]

open Assembler Typing in
/-- In a block, after a return: a call and an addition push an integer, also when they are checked
by slots and indices, and a body with a return makes the block unreachable. -/
theorem Program.lowering_keeps_stack_sample :
    ∃ first, Assembler.start sample ⟨7, 0⟩ = .ok first ∧
      (let a := first.run [.instr (.block .int32), .instr (.float .one), .instr .ret]
       let e : Expr := .arith .add (.call ⟨7, 2⟩ [.var ⟨⟨7, 0⟩, .param 0⟩]) (.int 1)
       let functions : List FuncType := [⟨[.f32], []⟩, ⟨[.i32, .f32], [.i32]⟩, ⟨[.i32], [.i32]⟩]
       let numbered (b : Assembler) (code : List SymbolicInstr) :=
         linked b.layout Numbering.sample code
       (a.expr e).2 = .ok .int32 ∧ (a.stmt sampleRun).2 = .ok () ∧
       (∃ code, a.Adds code (a.expr e).1 ∧ ∀ fr outer,
         Pushes ((a.expr e).1.linkedContext [] functions) fr outer (numbered (a.expr e).1 code)
           [.i32]) ∧
       ∃ code, a.Adds code (a.stmt sampleRun).1 ∧ ∀ fr outer,
         steps ((a.stmt sampleRun).1.linkedContext [] functions) (fr :: outer)
           (numbered (a.stmt sampleRun).1 code) = some (fr.leave :: outer)) := by
  have started : Assembler.start sample ⟨7, 0⟩ =
      .ok ⟨⟨sample, ⟨7, 0⟩, sample.decls[0]⟩, [], 0⟩ := rfl
  refine ⟨_, started, ?_⟩
  intro a e functions numbered
  obtain ⟨exprs, stmts⟩ := lowering_keeps_stack built_sample started
    [.instr (.block .int32), .instr (.float .one), .instr .ret]
  have indexed : ∀ g d, sample.get? g = some d →
      functions[Numbering.sample.number g]? = some d.funcType := by
    intro g d known
    have all := forall_of_all
      (fun g d => functions[Numbering.sample.number g]? == some d.funcType) (by decide +kernel)
      g d known
    simpa using all
  have ok : (a.expr e).2 = .ok .int32 := by cbv
  have ok' : (a.stmt sampleRun).2 = .ok () := by cbv
  refine ⟨ok, ok', ?_, ?_⟩
  · obtain ⟨code, adds, pushes⟩ := exprs e
    exact ⟨code, adds, pushes .int32 ok _ _ _ _ _ (adds.finished [] _ [] functions indexed)⟩
  · obtain ⟨code, adds, leaves⟩ := stmts sampleRun
    refine ⟨code, adds, ?_⟩
    intro fr outer
    have described := adds.finished [] Numbering.sample [] functions indexed
    have returns : sampleRun.Returns :=
      .block (s := .ret (.var ⟨⟨7, 0⟩, .var 1⟩)) (by simp) (.ret _)
    exact (leaves ok' _ _ _ _ _ described fr outer).2 returns

end WasmForge

import Mathlib
import WasmForge.Proofs.Lowering
import WasmForge.Proofs.Reading

/-!
# Assembling step by step

An assembler is asked for one thing after another: for single instructions, and for the code of
expressions and statements.  It may refuse, and then it goes on with what it had added so far.
Whatever the order, its code is one that it would take again, instruction by instruction, from an
empty body.  So every fact about a body follows from what adding a single instruction does.

* `nesting`: the number of open constructs in the course of a stream.
* `Assembler.push_eq_ok`: when a single instruction is added, and what that does.
* `Assembler.Command`, `Assembler.run`: what an assembler is asked for, and what becomes of it.
* `Assembler.Assembled`: the code of the assembler was added instruction by instruction.
* `Assembler.Assembled.run`: this holds after any commands, refused ones included.
-/

namespace WasmForge

/-! ## Nesting -/

section Nesting

variable {L F L' F' : Type}

/-- The number of open constructs after one of them is opened or closed, if there is one to
close. -/
def climb : Nat → DyckStep → Option Nat
  | depth, .U => some (depth + 1)
  | 0, .D => none
  | depth + 1, .D => some depth

/-- Does the stream item open or close a construct? -/
def Instr.bracket? : Instr L F → Option DyckStep
  | .op _ => none
  | .block _ => some .U
  | .loop _ => some .U
  | .close => some .D

/-- The label that a stream item branches to. -/
def Instr.branch? : Instr L F → Option Nat
  | .op o => o.branch?
  | _ => none

/-- The number of open constructs after a stretch of code, if there is always one to close.  It
starts with `depth` constructs open. -/
def nesting (depth : Nat) (code : List (Instr L F)) : Option Nat :=
  (code.filterMap Instr.bracket?).foldlM climb depth

@[simp] theorem nesting_op (depth : Nat) (o : Op L F) :
    nesting depth [.op o] = some depth := rfl

@[simp] theorem nesting_block (depth : Nat) (type : BlockType) :
    nesting depth ([.block type] : List (Instr L F)) = some (depth + 1) := rfl

@[simp] theorem nesting_loop (depth : Nat) (type : BlockType) :
    nesting depth ([.loop type] : List (Instr L F)) = some (depth + 1) := rfl

@[simp] theorem nesting_close_zero : nesting 0 ([.close] : List (Instr L F)) = none := rfl

@[simp] theorem nesting_close_succ (depth : Nat) :
    nesting (depth + 1) ([.close] : List (Instr L F)) = some depth := rfl

theorem nesting_append (depth : Nat) (xs ys : List (Instr L F)) :
    nesting depth (xs ++ ys) = (nesting depth xs).bind (nesting · ys) := by
  rw [nesting, List.filterMap_append, List.foldlM_append]
  rfl

theorem nesting_cons (depth : Nat) (i : Instr L F) (code : List (Instr L F)) :
    nesting depth (i :: code) = (nesting depth [i]).bind (nesting · code) :=
  nesting_append depth [i] code

/-- Instructions of one step leave the constructs as they are. -/
theorem nesting_ops (depth : Nat) {code : List (Instr L F)} (ops : ∀ i ∈ code, ∃ o, i = .op o) :
    nesting depth code = some depth := by
  have none : code.filterMap Instr.bracket? = [] := by
    refine List.filterMap_eq_nil_iff.2 ?_
    intro i mem
    obtain ⟨o, rfl⟩ := ops i mem
    rfl
  rw [nesting, none]
  rfl

@[simp] theorem Instr.bracket?_relabel (s : L → L') (g : F → F') (i : Instr L F) :
    (i.relabel s g).bracket? = i.bracket? := by
  cases i <;> rfl

@[simp] theorem Instr.branch?_relabel (s : L → L') (g : F → F') (i : Instr L F) :
    (i.relabel s g).branch? = i.branch? := by
  cases i with
  | op o => exact Op.branch?_relabel s g o
  | _ => rfl

theorem nesting_relabel (s : L → L') (g : F → F') (depth : Nat) (code : List (Instr L F)) :
    nesting depth (code.map (Instr.relabel s g)) = nesting depth code := by
  have brackets : (Instr.bracket? ∘ Instr.relabel s g : Instr L F → _) = Instr.bracket? :=
    funext fun i => i.bracket?_relabel s g
  rw [nesting, List.filterMap_map, brackets, nesting]

/-- One more construct around everything stays open. -/
theorem foldlM_climb_succ {steps : List DyckStep} {depth after : Nat}
    (h : steps.foldlM climb depth = some after) :
    steps.foldlM climb (depth + 1) = some (after + 1) := by
  induction steps generalizing depth with
  | nil =>
    cases h
    rfl
  | cons s steps ih =>
    cases s with
    | U => exact ih h
    | D =>
      cases depth with
      | zero => cases h
      | succ depth => exact ih h

theorem nesting_succ {depth after : Nat} {code : List (Instr L F)}
    (h : nesting depth code = some after) : nesting (depth + 1) code = some (after + 1) :=
  foldlM_climb_succ h

/-- What is open in the end was open at the start or was opened, and was not closed. -/
theorem count_of_foldlM_climb {steps : List DyckStep} {depth after : Nat}
    (h : steps.foldlM climb depth = some after) :
    depth + steps.count .U = after + steps.count .D := by
  induction steps generalizing depth with
  | nil =>
    cases h
    rfl
  | cons s steps ih =>
    cases s with
    | U =>
      have rest : depth + 1 + steps.count .U = after + steps.count .D := ih h
      rw [List.count_cons_self, List.count_cons_of_ne (by decide)]
      omega
    | D =>
      cases depth with
      | zero => cases h
      | succ depth =>
        have rest : depth + steps.count .U = after + steps.count .D := ih h
        rw [List.count_cons_self, List.count_cons_of_ne (by decide)]
        omega

/-- Constructs that can be opened and closed in a row leave none open exactly when they are
balanced. -/
theorem exists_dyckWord_iff {steps : List DyckStep} {after : Nat}
    (h : steps.foldlM climb 0 = some after) :
    (∃ w : DyckWord, w.toList = steps) ↔ after = 0 := by
  have whole := count_of_foldlM_climb h
  constructor
  · rintro ⟨w, rfl⟩
    have balanced := w.count_U_eq_count_D
    omega
  · rintro rfl
    refine ⟨⟨steps, by omega, ?_⟩, rfl⟩
    intro i
    have split : (steps.take i ++ steps.drop i).foldlM climb 0 = some 0 := by
      rw [List.take_append_drop]
      exact h
    rw [List.foldlM_append] at split
    obtain ⟨between, start, -⟩ := Option.bind_eq_some_iff.1 split
    have part := count_of_foldlM_climb start
    omega

end Nesting

/-- A local that has a type in the function is one of its own and is declared with that type. -/
theorem Scope.declared_of_localType {s : Scope} {l : Local} {t : ValueType}
    (typed : s.localType l = .ok t) :
    l.owner = s.func ∧ s.decl.localType? l.place = some t := by
  unfold localType at typed
  split at typed
  · rename_i own
    split at typed
    · rename_i u declared
      cases typed
      exact ⟨own, declared⟩
    · cases typed
  · cases typed

namespace Assembler

variable {a b : Assembler}

/-! ## Single instructions -/

/-- An instruction is added exactly when its local is one of the function, its label is that of an
open construct or of the function, and there is a construct for it to close. -/
theorem push_eq_ok {i : SymbolicInstr} :
    a.push i = .ok b ↔
      (∀ l ∈ i.local?, ∃ t, a.scope.localType l = .ok t) ∧
        (∀ label ∈ i.branch?, label ≤ a.depth) ∧
        ∃ k, nesting a.depth [i] = some k ∧ b = ⟨a.scope, a.code ++ [i], k⟩ := by
  have result : ∀ k, (⟨a.scope, a.code ++ [i], k⟩ : Assembler) = b ↔
      b = ⟨a.scope, a.code ++ [i], k⟩ := fun _ => eq_comm
  cases i with
  | op o =>
    cases o with
    | localGet l | localSet l =>
      simp only [push, bind_eq_ok, pure, Except.pure, Except.ok.injEq, append, result]
      simp [Instr.local?, Op.local?, Instr.branch?, Op.branch?]
    | br label | brIf label =>
      simp only [push, append, refuse]
      split
      · rename_i inside
        simp [Instr.local?, Op.local?, Instr.branch?, Op.branch?, inside, result]
      · rename_i outside
        simp [Instr.branch?, Op.branch?, outside]
    | _ => simp [push, append, Instr.local?, Op.local?, Instr.branch?, Op.branch?, result]
  | block type | loop type => simp [push, append, Instr.local?, Instr.branch?, result]
  | close =>
    simp only [push, append, refuse]
    cases a.depth with
    | zero => simp
    | succ depth => simp [Instr.local?, Instr.branch?, result]

/-- Adds instructions, first to last. -/
def pushAll (a : Assembler) (code : List SymbolicInstr) : Except EmitError Assembler :=
  code.foldlM push a

theorem pushAll_concat (a : Assembler) (code : List SymbolicInstr) (i : SymbolicInstr) :
    a.pushAll (code ++ [i]) = a.pushAll code >>= fun b => b.push i := by
  rw [pushAll, List.foldlM_append]
  congr 1
  funext b
  rw [List.foldlM_cons]
  exact bind_pure _

/-- What holds of instructions that were added one by one: they name locals of the function, and
every branch goes to a construct that is open where it stands, or to the function. -/
structure Took (a : Assembler) (added : List SymbolicInstr) (b : Assembler) : Prop where
  /-- The function stays the same. -/
  scope : b.scope = a.scope
  /-- The instructions stand at the end. -/
  code : b.code = a.code ++ added
  /-- The constructs that are open in the end. -/
  depth : nesting a.depth added = some b.depth
  /-- The locals. -/
  locals : ∀ i ∈ added, ∀ l ∈ i.local?, ∃ t, a.scope.localType l = .ok t
  /-- The labels. -/
  labels : ∀ before i after, added = before ++ i :: after →
    ∃ k, nesting a.depth before = some k ∧ ∀ label ∈ i.branch?, label ≤ k

theorem took_of_pushAll {code : List SymbolicInstr} (h : a.pushAll code = .ok b) :
    a.Took code b := by
  induction code generalizing a with
  | nil =>
    cases h
    exact ⟨rfl, (List.append_nil _).symm, rfl, nofun, by simp⟩
  | cons i code ih =>
    rw [pushAll, List.foldlM_cons, bind_eq_ok] at h
    obtain ⟨next, head, tail⟩ := h
    obtain ⟨named, labelled, depth, nested, rfl⟩ := push_eq_ok.1 head
    have rest := ih tail
    refine ⟨rest.scope, ?_, ?_, ?_, ?_⟩
    · rw [rest.code, List.append_assoc]
      rfl
    · rw [nesting_cons, nested]
      exact rest.depth
    · exact List.forall_mem_cons.2 ⟨named, rest.locals⟩
    · intro before j after split
      cases before with
      | nil =>
        cases split
        exact ⟨a.depth, rfl, labelled⟩
      | cons i' before =>
        cases split
        obtain ⟨k, reached, inside⟩ := rest.labels before j after rfl
        exact ⟨k, by rw [nesting_cons, nested]; exact reached, inside⟩

/-- Instructions that the function knows are taken in a row, and they open and close nothing. -/
theorem pushAll_of_knows {code : List SymbolicInstr} (known : ∀ i ∈ code, a.scope.Knows i) :
    a.pushAll code = .ok { a with code := a.code ++ code } := by
  induction code generalizing a with
  | nil => simp [pushAll, pure, Except.pure]
  | cons i code ih =>
    obtain ⟨first, rest⟩ := List.forall_mem_cons.1 known
    obtain ⟨o, rfl, straight⟩ := first.straight
    have added : a.push (.op o) = .ok { a with code := a.code ++ [.op o] } := by
      refine push_eq_ok.2 ⟨?_, ?_, a.depth, nesting_ops _ (by simp), rfl⟩
      · intro l named
        obtain ⟨own, t, declared⟩ := first.locals l named
        exact ⟨t, by simp [Scope.localType, own, declared]⟩
      · intro label branches
        rw [Instr.branch?, straight] at branches
        cases branches
    rw [pushAll, List.foldlM_cons, added]
    show pushAll { a with code := a.code ++ [.op o] } code = _
    rw [ih (a := { a with code := a.code ++ [.op o] }) rest, List.append_assoc]
    rfl

/-! ## Commands -/

/-- An instruction that an assembler can be asked for. -/
inductive Instruction where
  /-- Pushes an integer. -/
  | int (v : Int32)
  /-- Pushes a single-precision number. -/
  | float (v : Single)
  /-- Combines two integers. -/
  | intArith (op : Arith)
  /-- Combines two single-precision numbers. -/
  | floatArith (op : Arith)
  /-- Discards the operand. -/
  | drop
  /-- Leaves the function. -/
  | ret
  /-- Pushes a local. -/
  | get (l : Local)
  /-- Pops into a local. -/
  | set (l : Local)
  /-- Calls a function. -/
  | call (f : FuncRef)
  /-- Opens a construct whose label is at its end. -/
  | block (t : ValueType)
  /-- Opens a construct whose label is at its start. -/
  | loop (t : ValueType)
  /-- Leaves the construct `label` levels out. -/
  | br (label : UInt32)
  /-- Leaves the construct `label` levels out if the operand is not zero. -/
  | brIf (label : UInt32)
  /-- Closes the innermost construct. -/
  | close

/-- The instruction as it stands in the stream. -/
def Instruction.symbolic : Instruction → SymbolicInstr
  | int v => .op (.i32Const v)
  | float v => .op (.f32Const v)
  | intArith o => .op (.i32Arith o)
  | floatArith o => .op (.f32Arith o)
  | drop => .op .drop
  | ret => .op .ret
  | get l => .op (.localGet l)
  | set l => .op (.localSet l)
  | call f => .op (.call f)
  | block t => .block (.result t.valType?)
  | loop t => .loop (.result t.valType?)
  | br label => .op (.br label.toNat)
  | brIf label => .op (.brIf label.toNat)
  | close => .close

/-- Something that an assembler is asked for. -/
inductive Command where
  /-- A single instruction. -/
  | instr (i : Instruction)
  /-- The code of an expression. -/
  | expr (e : Expr)
  /-- The code of a statement. -/
  | stmt (c : Stmt)
  /-- The code of statements, first to last. -/
  | stmts (cs : List Stmt)

/-- The body after a command, and whether the command was refused.  A refused instruction is not
added; of a refused tree, the part before the failure is. -/
def perform (a : Assembler) : Command → Assembler × Except EmitError Unit
  | .instr i =>
    match a.push i.symbolic with
    | .ok b => (b, .ok ())
    | .error e => (a, .error e)
  | .expr e => ((a.expr e).1, (a.expr e).2.map fun _ => ())
  | .stmt c => a.stmt c
  | .stmts cs => a.stmts cs

/-- The body after commands, first to last. -/
def run (a : Assembler) (commands : List Command) : Assembler :=
  commands.foldl (fun a c => (a.perform c).1) a

theorem run_cons (a : Assembler) (c : Command) (commands : List Command) :
    a.run (c :: commands) = (a.perform c).1.run commands :=
  rfl

/-- What a command can do.  Trees add what the function knows, whether or not they are refused. -/
theorem perform_cases (a : Assembler) (c : Command) :
    (∃ i b, c = .instr i ∧ a.push i.symbolic = .ok b ∧ a.perform c = (b, .ok ())) ∨
    (∃ i e, c = .instr i ∧ a.push i.symbolic = .error e ∧ a.perform c = (a, .error e)) ∨
    (∃ code, (∀ i, c ≠ .instr i) ∧ (∀ i ∈ code, a.scope.Knows i) ∧
      (a.perform c).1 = { a with code := a.code ++ code }) := by
  cases c with
  | instr i =>
    cases pushed : a.push i.symbolic with
    | ok b => exact .inl ⟨i, b, rfl, pushed, by simp [perform, pushed]⟩
    | error e => exact .inr (.inl ⟨i, e, rfl, pushed, by simp [perform, pushed]⟩)
  | expr e => exact .inr (.inr ⟨_, nofun, Scope.within_expr e, rfl⟩)
  | stmt c => exact .inr (.inr ⟨_, nofun, Scope.within_stmt c, rfl⟩)
  | stmts cs => exact .inr (.inr ⟨_, nofun, Scope.within_stmts cs, rfl⟩)

/-! ## Whatever the commands -/

/-- Are the label and the type of a stream item written in 32 bits? -/
def Narrow : SymbolicInstr → Prop
  | .op o => ∀ label ∈ o.branch?, label < 2 ^ 32
  | .block type => type.Fits
  | .loop type => type.Fits
  | .close => True

theorem narrow_symbolic (i : Instruction) : Narrow i.symbolic := by
  cases i with
  | block t | loop t | close => exact trivial
  | br label | brIf label =>
    rintro _ ⟨⟩
    exact label.toNat_lt
  | _ => exact nofun

/-- An empty body takes the code of the assembler, instruction by instruction, and becomes this
assembler. -/
structure Assembled (a : Assembler) : Prop where
  /-- The instructions are taken one after the other. -/
  pushed : (⟨a.scope, [], 0⟩ : Assembler).pushAll a.code = .ok a
  /-- Labels and types are narrow. -/
  narrow : ∀ i ∈ a.code, Narrow i

theorem Assembled.took (assembled : a.Assembled) :
    (⟨a.scope, [], 0⟩ : Assembler).Took a.code a :=
  took_of_pushAll assembled.pushed

theorem Assembled.push (assembled : a.Assembled) {i : SymbolicInstr} (narrow : Narrow i)
    (done : a.push i = .ok b) : b.Assembled := by
  have taken : b.scope = a.scope ∧ b.code = a.code ++ [i] := by
    obtain ⟨-, -, k, -, rfl⟩ := push_eq_ok.1 done
    exact ⟨rfl, rfl⟩
  constructor
  · rw [taken.1, taken.2, pushAll_concat, assembled.pushed]
    exact done
  · rw [taken.2, List.forall_mem_append]
    exact ⟨assembled.narrow, by simpa using narrow⟩

theorem Assembled.pushAll (assembled : a.Assembled) {code : List SymbolicInstr}
    (narrow : ∀ i ∈ code, Narrow i) (done : a.pushAll code = .ok b) : b.Assembled := by
  induction code generalizing a with
  | nil =>
    cases done
    exact assembled
  | cons i code ih =>
    rw [Assembler.pushAll, List.foldlM_cons, bind_eq_ok] at done
    obtain ⟨next, head, tail⟩ := done
    obtain ⟨first, rest⟩ := List.forall_mem_cons.1 narrow
    exact ih (assembled.push first head) rest tail

theorem Assembled.perform (assembled : a.Assembled) (c : Command) :
    (a.perform c).1.Assembled := by
  rcases a.perform_cases c with
    ⟨i, b, -, pushed, done⟩ | ⟨i, e, -, -, done⟩ | ⟨code, -, known, done⟩
  · rw [done]
    exact assembled.push (narrow_symbolic i) pushed
  · rw [done]
    exact assembled
  · rw [done]
    refine assembled.pushAll ?_ (pushAll_of_knows known)
    intro i mem
    obtain ⟨o, rfl, straight⟩ := (known i mem).straight
    intro label branches
    rw [straight] at branches
    cases branches

/-- Commands lead from what was added instruction by instruction to such a body. -/
theorem Assembled.run (assembled : a.Assembled) (commands : List Command) :
    (a.run commands).Assembled := by
  induction commands generalizing a with
  | nil => exact assembled
  | cons c commands ih => exact ih (assembled.perform c)

theorem scope_perform (a : Assembler) (c : Command) : (a.perform c).1.scope = a.scope := by
  rcases a.perform_cases c with ⟨i, b, -, pushed, done⟩ | ⟨i, e, -, -, done⟩ | ⟨code, -, -, done⟩
  · obtain ⟨-, -, k, -, rfl⟩ := push_eq_ok.1 pushed
    rw [done]
  · rw [done]
  · rw [done]

theorem scope_run (a : Assembler) (commands : List Command) : (a.run commands).scope = a.scope := by
  induction commands generalizing a with
  | nil => rfl
  | cons c commands ih => rw [run_cons, ih, scope_perform]

/-! ## Bodies of a program's functions -/

section Started

variable {p : Program} {f : FuncRef} {first : Assembler}

/-- An assembler starts with an empty body for a function that the program defines. -/
theorem start_eq_ok :
    start p f = .ok first ↔
      ∃ d, p.get? f = some d ∧ d.isImport = false ∧ first = ⟨⟨p, f, d⟩, [], 0⟩ := by
  constructor
  · intro started
    obtain ⟨scope, entered, rfl⟩ := map_eq_ok.1 started
    unfold Scope.enter at entered
    split at entered
    · cases entered
    · rename_i d known
      split at entered
      · cases entered
      · rename_i defined
        cases entered
        exact ⟨d, known, by simpa using defined, rfl⟩
  · rintro ⟨d, known, defined, rfl⟩
    exact Program.start_of_defined known defined

theorem assembled_start (started : start p f = .ok first) : first.Assembled := by
  obtain ⟨d, -, -, rfl⟩ := start_eq_ok.1 started
  exact ⟨rfl, nofun⟩

/-- Whatever an assembler is asked for, its code is added instruction by instruction. -/
theorem assembled_run (started : start p f = .ok first) (commands : List Command) :
    (first.run commands).Assembled :=
  (assembled_start started).run commands

/-- The declaration of a function that is assembled is tidy. -/
theorem tidy_run (built : p.Built) (started : start p f = .ok first) (commands : List Command) :
    (first.run commands).scope.decl.Tidy := by
  rw [scope_run]
  obtain ⟨d, known, -, rfl⟩ := start_eq_ok.1 started
  exact built.tidy.decls f d known

end Started

/-- Locals in the code belong to the function and are declared there. -/
theorem Assembled.declared (assembled : a.Assembled) {i : SymbolicInstr} (mem : i ∈ a.code)
    {l : Local} (named : l ∈ i.local?) :
    l.owner = a.scope.func ∧ ∃ t, a.scope.decl.localType? l.place = some t := by
  obtain ⟨t, typed⟩ := assembled.took.locals i mem l named
  obtain ⟨own, declared⟩ := Scope.declared_of_localType typed
  exact ⟨own, t, declared⟩

/-- Locals in the code have slots. -/
theorem Assembled.slotted (assembled : a.Assembled) (tidy : a.scope.decl.Tidy) {i : SymbolicInstr}
    (mem : i ∈ a.code) {l : Local} (named : l ∈ i.local?) :
    (a.layout.slotOf? l.place).isSome = true := by
  obtain ⟨-, t, declared⟩ := assembled.declared mem named
  exact slotOf?_isSome mem named declared (tidy.storable _ t declared)

end Assembler

end WasmForge

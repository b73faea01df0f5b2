import Mathlib
import WasmForge.Assembly.Assembler
import WasmForge.Proofs.Slots

/-!
# Linked bodies

Linking a body puts slots and indices in place of handles and changes nothing else.  It succeeds
exactly when every handle in the body has one, and what the typing machine says about the linked
body is what it says about the handles.

* `Instr.relabel`: an instruction with other names for locals and functions.
* `Assembler.finish_eq_ok`, `Assembler.link_eq_ok`: when a body is finished, and with which bytes.
* `Typing.steps_relabel`: relabelling keeps the types.
-/

namespace WasmForge

/-! ## Names in instructions -/

section Names

variable {L F L' F' : Type}

namespace Op

/-- The local that an instruction names. -/
def local? : Op L F → Option L
  | .localGet l => some l
  | .localSet l => some l
  | _ => none

/-- The function that an instruction names. -/
def callee? : Op L F → Option F
  | .call f => some f
  | _ => none

/-- The label that an instruction branches to. -/
def branch? : Op L F → Option Nat
  | .br label => some label
  | .brIf label => some label
  | _ => none

/-- The instruction with other names. -/
def relabel (s : L → L') (g : F → F') (o : Op L F) : Op L' F' := o.rename (m := Id) s g

@[simp] theorem relabel_localGet (s : L → L') (g : F → F') (l : L) :
    (localGet l : Op L F).relabel s g = .localGet (s l) := rfl

@[simp] theorem relabel_localSet (s : L → L') (g : F → F') (l : L) :
    (localSet l : Op L F).relabel s g = .localSet (s l) := rfl

@[simp] theorem relabel_call (s : L → L') (g : F → F') (f : F) :
    (call f : Op L F).relabel s g = .call (g f) := rfl

@[simp] theorem branch?_relabel (s : L → L') (g : F → F') (o : Op L F) :
    (o.relabel s g).branch? = o.branch? := by
  cases o <;> rfl

/-- Renaming succeeds exactly when the names in the instruction have new ones. -/
theorem rename_eq_ok {ε : Type} {onLocal : L → Except ε L'} {onFunction : F → Except ε F'}
    {s : L → L'} {g : F → F'} {named : L → Prop} {known : F → Prop}
    (slots : ∀ l k, onLocal l = .ok k ↔ named l ∧ k = s l)
    (indices : ∀ f k, onFunction f = .ok k ↔ known f ∧ k = g f) {o : Op L F} {o' : Op L' F'} :
    o.rename onLocal onFunction = .ok o' ↔
      (∀ l ∈ o.local?, named l) ∧ (∀ f ∈ o.callee?, known f) ∧ o' = o.relabel s g := by
  have one : ∀ {A B : Type} {P : Prop} {k : A} {mk : A → B} {b : B},
      (∃ a, (P ∧ a = k) ∧ mk a = b) ↔ P ∧ b = mk k := by
    intro A B P k mk b
    constructor
    · rintro ⟨_, ⟨holds, rfl⟩, rfl⟩
      exact ⟨holds, rfl⟩
    · rintro ⟨holds, rfl⟩
      exact ⟨k, ⟨holds, rfl⟩, rfl⟩
  cases o with
  | localGet l =>
    simp only [rename, bind_eq_ok, slots, pure, Except.pure, Except.ok.injEq, one]
    simp [local?, callee?]
  | localSet l =>
    simp only [rename, bind_eq_ok, slots, pure, Except.pure, Except.ok.injEq, one]
    simp [local?, callee?]
  | call f =>
    simp only [rename, bind_eq_ok, indices, pure, Except.pure, Except.ok.injEq, one]
    simp [local?, callee?]
  | _ => simp [rename, relabel, local?, callee?, pure, Except.pure, eq_comm]

end Op

namespace Instr

/-- The local that a stream item names. -/
def local? : Instr L F → Option L
  | .op o => o.local?
  | _ => none

/-- The function that a stream item names. -/
def callee? : Instr L F → Option F
  | .op o => o.callee?
  | _ => none

/-- The stream item with other names. -/
def relabel (s : L → L') (g : F → F') : Instr L F → Instr L' F'
  | .op o => .op (o.relabel s g)
  | .block type => .block type
  | .loop type => .loop type
  | .close => .close

theorem rename_eq_ok {ε : Type} {onLocal : L → Except ε L'} {onFunction : F → Except ε F'}
    {s : L → L'} {g : F → F'} {named : L → Prop} {known : F → Prop}
    (slots : ∀ l k, onLocal l = .ok k ↔ named l ∧ k = s l)
    (indices : ∀ f k, onFunction f = .ok k ↔ known f ∧ k = g f) {i : Instr L F}
    {i' : Instr L' F'} :
    i.rename onLocal onFunction = .ok i' ↔
      ((∀ l ∈ i.local?, named l) ∧ ∀ f ∈ i.callee?, known f) ∧ i' = i.relabel s g := by
  cases i with
  | op o =>
    simp only [rename, bind_eq_ok, Op.rename_eq_ok slots indices, pure, Except.pure,
      Except.ok.injEq, local?, callee?, relabel]
    constructor
    · rintro ⟨o', ⟨named, known, rfl⟩, rfl⟩
      exact ⟨⟨named, known⟩, rfl⟩
    · rintro ⟨⟨named, known⟩, rfl⟩
      exact ⟨_, ⟨named, known, rfl⟩, rfl⟩
  | _ => simp [rename, relabel, local?, callee?, pure, Except.pure, eq_comm]

end Instr

end Names

/-! ## Linking -/

/-- The slot of a local that has one. -/
def SlotLayout.slot (layout : SlotLayout) (l : Local) : Nat := (layout.slotOf? l.place).getD 0

/-- The index of a function that has one. -/
def Numbering.number (n : Numbering) (f : FuncRef) : Nat := (n.indexOf? f).getD 0

namespace Assembler

variable {a : Assembler} {n : Numbering}

theorem slot_eq_ok {layout : SlotLayout} (l : Local) (k : Nat) :
    slot layout l = .ok k ↔ (layout.slotOf? l.place).isSome = true ∧ k = layout.slot l := by
  unfold slot SlotLayout.slot
  cases layout.slotOf? l.place <;> simp [eq_comm]

theorem index_eq_ok (f : FuncRef) (k : Nat) :
    index n f = .ok k ↔ (n.indexOf? f).isSome = true ∧ k = n.number f := by
  unfold index Numbering.number
  rw [mapError_eq_ok, Numbering.indexOf_eq_ok]
  cases n.indexOf? f <;> simp [eq_comm]

/-- A stretch of code with slots and indices in place of handles. -/
def linked (layout : SlotLayout) (n : Numbering) (code : List SymbolicInstr) :
    List (Instr Nat Nat) :=
  code.map (Instr.relabel layout.slot n.number)

/-- A body is linked exactly when every local in it has a slot and every function an index. -/
theorem link_eq_ok {c : Code} :
    a.link n = .ok c ↔
      (∀ i ∈ a.code, (∀ l ∈ i.local?, (a.layout.slotOf? l.place).isSome = true) ∧
        ∀ f ∈ i.callee?, (n.indexOf? f).isSome = true) ∧
      c = ⟨a.layout.localGroups, linked a.layout n a.code ++ [.close]⟩ := by
  unfold link
  simp only [bind_eq_ok, mapM_eq_ok_map (fun _ _ => Instr.rename_eq_ok slot_eq_ok index_eq_ok),
    pure, Except.pure, Except.ok.injEq]
  constructor
  · rintro ⟨_, ⟨named, rfl⟩, rfl⟩
    exact ⟨named, rfl⟩
  · rintro ⟨named, rfl⟩
    exact ⟨_, ⟨named, rfl⟩, rfl⟩

theorem finish_eq_ok {bs : Bytes} :
    a.finish n = .ok bs ↔
      a.depth = 0 ∧ ∃ c, a.link n = .ok c ∧ bs = Bytes.sized c.encode := by
  unfold finish
  split
  · rename_i closed
    rw [map_eq_ok, and_iff_right closed]
    exact exists_congr fun c => and_congr_right fun _ => eq_comm
  · rename_i left
    simp [refuse, left]

end Assembler

/-! ## Types -/

namespace Typing

variable {L F L' F' : Type} {ctx : Context L F} {ctx' : Context L' F'} {s : L → L'} {g : F → F'}

/-- Two contexts give the new names in a stream item the types that its names have. -/
structure Agree (ctx : Context L F) (ctx' : Context L' F') (s : L → L') (g : F → F')
    (i : Instr L F) : Prop where
  /-- The locals. -/
  locals : ∀ l ∈ i.local?, ctx'.localType? (s l) = ctx.localType? l
  /-- The functions. -/
  functions : ∀ f ∈ i.callee?, ctx'.funcType? (g f) = ctx.funcType? f

theorem step_relabel {i : Instr L F} (agree : Agree ctx ctx' s g i)
    (types : ctx'.types = ctx.types) (results : ctx'.results = ctx.results) (frames : List Frame) :
    step ctx' frames (i.relabel s g) = step ctx frames i := by
  cases frames with
  | nil => rfl
  | cons f outer =>
    cases i with
    | op o =>
      have same : stepOp ctx' (f :: outer) f (o.relabel s g) = stepOp ctx (f :: outer) f o := by
        cases o with
        | localGet l =>
          show (do return f.push (← ctx'.localType? (s l)) : Option Frame) = _
          rw [agree.locals l rfl]
          rfl
        | localSet l =>
          show (do f.pop (← ctx'.localType? (s l)) : Option Frame) = _
          rw [agree.locals l rfl]
          rfl
        | call h =>
          show (do
            let type ← ctx'.funcType? (g h)
            return (← f.popAll type.params).pushAll type.results : Option Frame) = _
          rw [agree.functions h rfl]
          rfl
        | ret =>
          show (do return (← f.popAll ctx'.results).leave : Option Frame) = _
          rw [results]
          rfl
        | _ => rfl
      show (do return (← stepOp ctx' (f :: outer) f (o.relabel s g)) :: outer : Option _) = _
      rw [same]
      rfl
    | block type =>
      simp only [Instr.relabel, step]
      rw [types]
    | loop type =>
      simp only [Instr.relabel, step]
      rw [types]
    | close => rfl

/-- Relabelling a stretch of code keeps what it does to the open constructs. -/
theorem steps_relabel {code : List (Instr L F)} (agree : ∀ i ∈ code, Agree ctx ctx' s g i)
    (types : ctx'.types = ctx.types) (results : ctx'.results = ctx.results) (frames : List Frame) :
    steps ctx' frames (code.map (Instr.relabel s g)) = steps ctx frames code := by
  induction code generalizing frames with
  | nil => rfl
  | cons i code ih =>
    have rest := ih fun j hj => agree j (List.mem_cons_of_mem i hj)
    unfold steps at rest ⊢
    rw [List.map_cons, List.foldlM_cons, List.foldlM_cons,
      step_relabel (agree i List.mem_cons_self) types results]
    exact congrArg _ (funext rest)

end Typing

end WasmForge

import WasmForge.Error

/-!
# Emissions

An emission is what lowering a tree produces: a stretch of instructions, and a value or an error.
An emission that fails keeps the instructions that came before the failure.  Emissions in a row
concatenate their instructions and stop at the first error.
-/

namespace WasmForge

/-- An instruction that names locals and functions by handles. -/
abbrev SymbolicInstr : Type := Instr Local FuncRef

/-- Instructions, and what came of producing them. -/
structure Emission (α : Type) where
  /-- The instructions, in order. -/
  code : List SymbolicInstr
  /-- The value, or why there is none. -/
  outcome : Except EmitError α

namespace Emission

variable {α β : Type}

/-- No instructions and a value. -/
protected def pure (a : α) : Emission α := ⟨[], .ok a⟩

/-- One emission after another. -/
protected def bind (x : Emission α) (f : α → Emission β) : Emission β :=
  match x.outcome with
  | .ok a => ⟨x.code ++ (f a).code, (f a).outcome⟩
  | .error e => ⟨x.code, .error e⟩

instance : Monad Emission where
  pure := Emission.pure
  bind := Emission.bind

/-- One instruction. -/
def emit (o : Op Local FuncRef) : Emission Unit := ⟨[.op o], .ok ()⟩

/-- No instructions and a failure. -/
def fail (e : LoweringError) : Emission α := ⟨[], .error (.lowering e)⟩

/-- No instructions, and the result of a computation. -/
def lift (x : Except EmitError α) : Emission α := ⟨[], x⟩

@[simp] theorem code_pure (a : α) : (pure a : Emission α).code = [] := rfl

@[simp] theorem outcome_pure (a : α) : (pure a : Emission α).outcome = .ok a := rfl

@[simp] theorem code_emit (o : Op Local FuncRef) : (emit o).code = [.op o] := rfl

@[simp] theorem outcome_emit (o : Op Local FuncRef) : (emit o).outcome = .ok () := rfl

@[simp] theorem code_fail (e : LoweringError) : (fail e : Emission α).code = [] := rfl

@[simp] theorem outcome_fail (e : LoweringError) :
    (fail e : Emission α).outcome = .error (.lowering e) := rfl

@[simp] theorem code_lift (x : Except EmitError α) : (lift x).code = [] := rfl

@[simp] theorem outcome_lift (x : Except EmitError α) : (lift x).outcome = x := rfl

theorem bind_of_ok {x : Emission α} {a : α} (h : x.outcome = .ok a) (f : α → Emission β) :
    x >>= f = ⟨x.code ++ (f a).code, (f a).outcome⟩ := by
  show Emission.bind x f = _
  simp [Emission.bind, h]

theorem bind_of_error {x : Emission α} {e : EmitError} (h : x.outcome = .error e)
    (f : α → Emission β) : x >>= f = ⟨x.code, .error e⟩ := by
  show Emission.bind x f = _
  simp [Emission.bind, h]

/-- A row of emissions succeeds exactly when each of them does. -/
theorem outcome_bind_eq_ok {x : Emission α} {f : α → Emission β} {b : β} :
    (x >>= f).outcome = .ok b ↔ ∃ a, x.outcome = .ok a ∧ (f a).outcome = .ok b := by
  show (Emission.bind x f).outcome = _ ↔ _
  unfold Emission.bind
  cases h : x.outcome <;> simp

end Emission

end WasmForge

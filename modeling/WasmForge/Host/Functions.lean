import WasmForge.Numeric.Scalar

/-!
# Host functions

What a host offers to a module: functions that take and give scalars and may change the state `σ`
of the host.  Nothing holds a host function to the type that it is imported at.
-/

namespace WasmForge

/-- A host function: given arguments, it may answer with a value, and it may change the state of the
host. -/
abbrev HostFunction (σ : Type) : Type := List Scalar → StateM σ (Option Scalar)

/-- Host functions by name; of two with one name the first counts. -/
structure Host (σ : Type) where
  /-- The functions. -/
  functions : List (String × HostFunction σ)

namespace Host

variable {σ : Type}

/-- No functions. -/
def empty : Host σ := ⟨[]⟩

/-- Adds a function, in place of an earlier one with the same name. -/
def define (h : Host σ) (name : String) (f : HostFunction σ) : Host σ :=
  ⟨(name, f) :: h.functions⟩

/-- The function with a name. -/
def find? (h : Host σ) (name : String) : Option (HostFunction σ) := h.functions.lookup name

end Host

end WasmForge

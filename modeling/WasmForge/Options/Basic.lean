import WasmForge.Module.Validity

/-!
# Emission options

The one thing to choose when a module is emitted is whether it imports a memory, and with what
limits.  Limits are kept as they are given; `EmitOptions.validate` says whether a memory with them
can exist.
-/

namespace WasmForge

/-- What can be wrong with the options. -/
inductive OptionsError where
  /-- The text is no description of options. -/
  | unreadable
  /-- The minimum is more than a memory can have. -/
  | minimumTooLarge (pages : UInt32)
  /-- The maximum is more than a memory can have. -/
  | maximumTooLarge (pages : UInt32)
  /-- The maximum is below the minimum. -/
  | maximumBelowMinimum (maximum minimum : UInt32)
  /-- An import has the name that the memory needs. -/
  | memoryNameTaken (name : String)
  deriving DecidableEq

/-- The wording of an error. -/
def OptionsError.message : OptionsError → String
  | unreadable => "invalid emit options"
  | minimumTooLarge n => s!"memory minimum of {n.toNat} pages exceeds {maxPages.toNat}"
  | maximumTooLarge n => s!"memory maximum of {n.toNat} pages exceeds {maxPages.toNat}"
  | maximumBelowMinimum max min => s!"memory maximum {max.toNat} is below minimum {min.toNat}"
  | memoryNameTaken name => s!"import `{name}` collides with the `env.memory` memory import"

namespace Limits

/-- Limits of a memory that never grows. -/
def fixed (pages : UInt32) : Limits := ⟨pages, some pages⟩

/-- Can a memory with these limits exist? -/
def validate (l : Limits) : Except OptionsError Unit :=
  if l.minimum > maxPages then .error (.minimumTooLarge l.minimum)
  else match l.maximum with
    | none => .ok ()
    | some max =>
      if max > maxPages then .error (.maximumTooLarge max)
      else if max < l.minimum then .error (.maximumBelowMinimum max l.minimum)
      else .ok ()

/-- The limits that can exist are those of a valid module. -/
theorem validate_eq_ok (l : Limits) : l.validate = .ok () ↔ l.fitMemory = true := by
  unfold validate fitMemory isOrdered
  split <;> rename_i h
  · have tooLarge : ¬l.minimum ≤ maxPages := UInt32.not_le.2 h
    simp [tooLarge]
  · cases hm : l.maximum with
    | none => simp_all
    | some max =>
      simp only [Option.all_some]
      split
      · simp_all
      · split <;> simp_all

end Limits

/-- The options of emission. -/
structure EmitOptions where
  /-- Limits of the memory to import, if there is to be one. -/
  memory : Option Limits := none
  deriving DecidableEq

namespace EmitOptions

/-- Options for a module that shares a memory of ten pages with its host. -/
def sharedMemory : EmitOptions := ⟨some (.fixed 10)⟩

/-- Can a module be emitted with these options? -/
def validate (o : EmitOptions) : Except OptionsError Unit :=
  match o.memory with
  | some limits => limits.validate
  | none => .ok ()

end EmitOptions

end WasmForge

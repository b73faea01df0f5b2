import Mathlib
import WasmForge.ModuleMap.Json
import WasmForge.Proofs.JsonReading

/-!
# Module maps through JSON

The text of a module map is read back as the same map, whatever the names, the host code and the
numbers in it are.

* `Json.Tree.fields?_written`: the fields of a written record.
* `Json.Tree.Transfers`: a way of writing values as trees and a way of reading them that agree.
* `ModuleMap.ofBytes?_toText`: reading the text of a map.
-/

namespace WasmForge

namespace Json.Tree

/-! ## Written records -/

/-- A written record has its fields, each under its name. -/
theorem fields?_written {names : List String} {members : List (String × Tree String)}
    (known : ∀ m ∈ members, m.1 ∈ names) (distinct : (members.map (·.1)).Nodup) (required : Nat) :
    (written (.object members)).fields? names required =
      some (members.map fun m => (m.1, m.2.written)) := by
  rw [written, fields?]
  induction members with
  | nil => rfl
  | cons m rest ih =>
    rw [List.forall_mem_cons] at known
    rw [List.map_cons, List.nodup_cons] at distinct
    have absent : (rest.map fun m => (m.1, m.2.written)).lookup m.1 = none := by
      simp only [List.lookup_eq_none_iff, List.forall_mem_map, bne_iff_ne]
      intro g mem same
      exact distinct.1 (same ▸ List.mem_map_of_mem mem)
    rw [List.map_cons, knownFields, decodeText?_writtenText, ih known.2 distinct.2]
    simp [known.1, absent]

/-- What is written as a tree is read back from what was written. -/
structure Transfers {α : Type} (write : α → Tree String) (read : Tree Bytes → Option α) : Prop where
  /-- The tree has natural numbers only. -/
  regular : ∀ x, (write x).Regular
  /-- Reading gives the value back. -/
  reads : ∀ x, read (write x).written = some x

namespace Transfers

variable {α : Type} {write : α → Tree String} {read : Tree Bytes → Option α}

theorem text : Transfers Tree.text text? :=
  ⟨.text, fun s => by rw [written, text?, decodeText?_writtenText]⟩

theorem u32 : Transfers (fun n : UInt32 => .ofNat n.toNat) u32? :=
  ⟨fun n => .number _, fun n => by rw [ofNat, written, ← ofNat, u32?_ofNat]⟩

/-- A choice between words. -/
theorem word {spell : α → String} {ofWord? : String → Option α}
    (known : ∀ x, ofWord? (spell x) = some x) :
    Transfers (fun x => .text (spell x)) (·.word?.bind ofWord?) := by
  refine ⟨fun x => .text _, fun x => ?_⟩
  rw [written, word?, decodeText?_writtenText, Option.bind_some, known]

/-- A list is written and read item by item. -/
theorem list (item : Transfers write read) :
    Transfers (fun xs => .array (xs.map write)) (·.list? read) := by
  refine ⟨fun xs => .array (by simpa using fun x _ => item.regular x), fun xs => ?_⟩
  rw [written, list?, List.map_map]
  induction xs with
  | nil => rfl
  | cons x xs ih => simp [item.reads, ih]

/-- The absence of a value is written as null, which must not be how a value is written. -/
theorem optional (item : Transfers write read) (solid : ∀ x, (write x).written ≠ .null) :
    Transfers (fun o : Option α => o.elim .null write) (optional? read) := by
  refine ⟨fun o => ?_, fun o => ?_⟩
  · cases o with
    | none => exact .null
    | some x => exact item.regular x
  · cases o with
    | none => rw [Option.elim_none, written, optional?]
    | some x => rw [Option.elim_some, optional?.eq_2 _ _ (solid x), item.reads, Option.map_some]

/-- Reading the text of what was written gives it back. -/
theorem parse?_bind (whole : Transfers write read) (x : α) :
    (parse? (Bytes.ofText (write x).render)).bind read = some x := by
  rw [parse?_render (whole.regular x), Option.bind_some, whole.reads]

end Transfers

end Json.Tree

open Json Json.Tree

theorem Param.transfers : Transfers Param.toJson Param.ofJson? := by
  refine ⟨fun p => .object (by simp [Regular.text]), fun p => ?_⟩
  have type := (Transfers.word ValueType.ofWord?_word).reads p.type
  have name := Transfers.text.reads p.name
  rw [Param.ofJson?, Param.toJson, fields?_written (by simp) (by simp)]
  simp [Fields.required, List.lookup, type, name]

theorem Limits.transfers : Transfers Limits.toJson Limits.ofJson? := by
  have solid : ∀ n : UInt32, (ofNat n.toNat).written ≠ .null := fun n => by simp [ofNat, written]
  refine ⟨fun l => .object ?_, fun l => ?_⟩
  · have max := (Transfers.u32.optional solid).regular l.maximum
    simp [Regular.number, max]
  · have min := Transfers.u32.reads l.minimum
    have max := (Transfers.u32.optional solid).reads l.maximum
    rw [Limits.ofJson?, Limits.toJson, fields?_written (by simp) (by simp)]
    simp [Fields.required, Fields.optional, List.lookup, min, max]

theorem MapEntry.transfers : Transfers MapEntry.toJson MapEntry.ofJson? := by
  have params := Param.transfers.list
  refine ⟨fun e => .object ?_, fun e => ?_⟩
  · have params := params.regular e.params
    cases e.hostCode <;> simp [Regular.number, Regular.text, params]
  · have index := Transfers.u32.reads e.index
    have name := Transfers.text.reads e.name
    have kind := (Transfers.word EntryKind.ofWord?_word).reads e.kind
    have params := params.reads e.params
    have result := (Transfers.word ValueType.ofWord?_word).reads e.result
    obtain ⟨i, n, k, ps, r, code⟩ := e
    rw [MapEntry.ofJson?, MapEntry.toJson]
    -- Host code that is absent is left out, and its field is then the one that may be missing.
    cases code with
    | none =>
      rw [fields?_written (by simp) (by simp)]
      simp [Fields.required, Fields.optional, List.lookup, index, name, kind, params, result]
    | some code =>
      have solid : ∀ s : String, (text s).written ≠ .null := fun s => by simp [written]
      have hostCode : optional? text? (text code).written = some (some code) :=
        (Transfers.text.optional solid).reads (some code)
      rw [fields?_written (by simp) (by simp)]
      simp [Fields.required, Fields.optional, List.lookup, index, name, kind, params, result,
        hostCode]

namespace ModuleMap

theorem transfers : Transfers toJson ofJson? := by
  have functions := MapEntry.transfers.list
  have memory := Limits.transfers.optional fun l => by simp [Limits.toJson, written]
  refine ⟨fun m => .object ?_, fun m => ?_⟩
  · have functions := functions.regular m.functions
    have memory := memory.regular m.memory
    simp [functions, memory]
  · have functions := functions.reads m.functions
    have memory := memory.reads m.memory
    rw [ofJson?, toJson, fields?_written (by simp) (by simp)]
    simp [Fields.required, Fields.optional, List.lookup, functions, memory]

/-- The text of a map is read back as the map. -/
theorem ofBytes?_toText (m : ModuleMap) : ofBytes? (Bytes.ofText m.toText) = some m :=
  transfers.parse?_bind m

end ModuleMap

end WasmForge

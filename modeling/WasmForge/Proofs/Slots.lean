import Mathlib
import WasmForge.Assembly.SlotLayout
import WasmForge.Proofs.Numbering

/-!
# Slots and their types

The slots of a layout are the parameters, then the touched integer locals, then the touched
single-precision locals.  Different places have different slots, and the type at the slot of a place
is the type of the place.
-/

namespace WasmForge

namespace SlotLayout

variable {count : Nat} {declared : List ValueType} {touched : Nat → Bool}

theorem mem_touchedOf {type : ValueType} {i : Nat} :
    i ∈ touchedOf type declared touched ↔ declared[i]? = some type ∧ touched i = true := by
  unfold touchedOf
  rw [List.mem_filter, List.mem_range, Bool.and_eq_true, beq_iff_eq]
  constructor
  · exact fun h => h.2
  · intro h
    obtain ⟨lt, -⟩ := List.getElem?_eq_some_iff.1 h.1
    exact ⟨lt, h⟩

theorem nodup_touchedOf (type : ValueType) (declared : List ValueType) (touched : Nat → Bool) :
    (touchedOf type declared touched).Nodup :=
  List.nodup_range.filter _

theorem slotOf?_param {i : Nat} :
    (of count declared touched).slotOf? (.param i) = if i < count then some i else none :=
  rfl

theorem slotOf?_param_eq_some {i k : Nat} :
    (of count declared touched).slotOf? (.param i) = some k ↔ k = i ∧ i < count := by
  rw [slotOf?_param]
  split
  · rename_i lt
    rw [Option.some.injEq, eq_comm, and_iff_left lt]
  · rename_i ge
    simp [ge]

/-- The places that have slots: parameters in range, and touched declared locals that hold
values. -/
theorem slotOf?_isSome {place : Place} :
    ((of count declared touched).slotOf? place).isSome = true ↔
      match place with
      | .param i => i < count
      | .var i => (∃ t, declared[i]? = some t ∧ t.isStorable = true) ∧ touched i = true := by
  cases place with
  | param i =>
    rw [slotOf?_param]
    split <;> simp_all
  | var i =>
    simp only [slotOf?, of]
    split
    · rename_i k found
      have mem : i ∈ touchedOf .int32 declared touched := by
        rw [← List.isSome_idxOf?, found]
        rfl
      obtain ⟨type, touch⟩ := mem_touchedOf.1 mem
      simp only [Option.isSome_some, true_iff]
      exact ⟨⟨_, type, rfl⟩, touch⟩
    · rename_i missing
      have notInt : i ∉ touchedOf .int32 declared touched := List.idxOf?_eq_none_iff.1 missing
      rw [Option.isSome_map, List.isSome_idxOf?, mem_touchedOf]
      constructor
      · rintro ⟨type, touch⟩
        exact ⟨⟨_, type, rfl⟩, touch⟩
      · rintro ⟨⟨t, type, storable⟩, touch⟩
        cases t with
        | void => cases storable
        | int32 => exact absurd (mem_touchedOf.2 ⟨type, touch⟩) notInt
        | float32 => exact ⟨type, touch⟩

/-- A local has the slot of its place among the integers, or else among the single-precision
numbers. -/
theorem slotOf?_var_eq_some {i k : Nat}
    (h : (of count declared touched).slotOf? (.var i) = some k) :
    (∃ j, (touchedOf .int32 declared touched)[j]? = some i ∧ k = count + j) ∨
      (∃ j, (touchedOf .float32 declared touched)[j]? = some i ∧
        k = count + (touchedOf .int32 declared touched).length + j) := by
  simp only [slotOf?, of] at h
  split at h
  · rename_i j found
    cases h
    exact .inl ⟨j, (idxOf?_eq_some_iff_of_nodup (nodup_touchedOf ..)).1 found, rfl⟩
  · obtain ⟨j, found, rfl⟩ := Option.map_eq_some_iff.1 h
    exact .inr ⟨j, (idxOf?_eq_some_iff_of_nodup (nodup_touchedOf ..)).1 found, rfl⟩

/-- Different places have different slots. -/
theorem slotOf?_inj {a b : Place} {k : Nat} (ha : (of count declared touched).slotOf? a = some k)
    (hb : (of count declared touched).slotOf? b = some k) : a = b := by
  have var : ∀ {i k}, (of count declared touched).slotOf? (.var i) = some k → count ≤ k := by
    intro i k h
    rcases slotOf?_var_eq_some h with ⟨j, -, rfl⟩ | ⟨j, -, rfl⟩ <;> omega
  cases a with
  | param i =>
    cases b with
    | param j => rw [← (slotOf?_param_eq_some.1 ha).1, ← (slotOf?_param_eq_some.1 hb).1]
    | var j =>
      have := slotOf?_param_eq_some.1 ha
      have := var hb
      omega
  | var i =>
    cases b with
    | param j =>
      have := slotOf?_param_eq_some.1 hb
      have := var ha
      omega
    | var j =>
      have bound : ∀ {l : List Nat} {x y : Nat}, l[x]? = some y → x < l.length := by
        intro l x y h
        exact (List.getElem?_eq_some_iff.1 h).1
      rcases slotOf?_var_eq_some ha with ⟨x, hx, rfl⟩ | ⟨x, hx, rfl⟩ <;>
        rcases slotOf?_var_eq_some hb with ⟨y, hy, same⟩ | ⟨y, hy, same⟩
      · obtain rfl : x = y := by omega
        rw [Option.some.inj (hx.symm.trans hy)]
      · have := bound hx
        omega
      · have := bound hy
        omega
      · obtain rfl : x = y := by omega
        rw [Option.some.inj (hx.symm.trans hy)]

/-- The groups of a layout stand for its integers, then its single-precision numbers. -/
theorem flatMap_localGroups (s : SlotLayout) :
    (s.localGroups.flatMap fun (count, t) => List.replicate count t) =
      List.replicate s.ints.length .i32 ++ List.replicate s.floats.length .f32 := by
  unfold localGroups groups
  cases s.ints <;> cases s.floats <;> simp [ValueType.valType?]

/-- What stands at the slot of a place, when the parameters come first, then something for every
integer and something for every single-precision number. -/
theorem getElem?_slot_of {α : Type} {types : List α} (size : types.length = count) (int float : α)
    {place : Place} {k : Nat} (h : (of count declared touched).slotOf? place = some k) :
    (types ++ (List.replicate (of count declared touched).ints.length int ++
        List.replicate (of count declared touched).floats.length float))[k]? =
      match place with
      | .param i => types[i]?
      | .var i => declared[i]?.bind fun
        | .void => none
        | .int32 => some int
        | .float32 => some float := by
  cases place with
  | param i =>
    obtain ⟨rfl, lt⟩ := slotOf?_param_eq_some.1 h
    exact List.getElem?_append_left (size ▸ lt)
  | var i =>
    have bound : ∀ {l : List Nat} {x y : Nat}, l[x]? = some y → x < l.length ∧ y ∈ l := by
      intro l x y h
      exact ⟨(List.getElem?_eq_some_iff.1 h).1, List.mem_of_getElem? h⟩
    rcases slotOf?_var_eq_some h with ⟨j, hj, rfl⟩ | ⟨j, hj, rfl⟩
    · obtain ⟨lt, mem⟩ := bound hj
      rw [List.getElem?_append_right (by omega), List.getElem?_append_left (by simp [of]; omega),
        List.getElem?_replicate_of_lt (by simp only [of]; omega)]
      simp only [(mem_touchedOf.1 mem).1, Option.bind_some]
    · obtain ⟨lt, mem⟩ := bound hj
      rw [List.getElem?_append_right (by omega), List.getElem?_append_right (by simp [of]; omega),
        List.getElem?_replicate_of_lt (by simp [of]; omega)]
      simp only [(mem_touchedOf.1 mem).1, Option.bind_some]

/-- The type at the slot of a place is the type of the place. -/
theorem getElem?_slot {types : List ValType} (size : types.length = count) {place : Place} {k : Nat}
    (h : (of count declared touched).slotOf? place = some k) :
    (types ++ (List.replicate (of count declared touched).ints.length .i32 ++
        List.replicate (of count declared touched).floats.length .f32))[k]? =
      match place with
      | .param i => types[i]?
      | .var i => declared[i]?.bind ValueType.valType? := by
  rw [getElem?_slot_of size .i32 .f32 h]
  cases place <;> rfl

/-! ## Order -/

/-- Touched locals of one type stand in declaration order. -/
theorem pairwise_touchedOf (type : ValueType) (declared : List ValueType) (touched : Nat → Bool) :
    (touchedOf type declared touched).Pairwise (· < ·) :=
  List.pairwise_lt_range.filter _

/-- In an ascending list, a smaller element stands at a smaller position. -/
theorem lt_of_getElem?_lt {xs : List Nat} (ascending : xs.Pairwise (· < ·)) {i j x y : Nat}
    (hx : xs[i]? = some x) (hy : xs[j]? = some y) (lt : x < y) : i < j := by
  obtain ⟨hi, rfl⟩ := List.getElem?_eq_some_iff.1 hx
  obtain ⟨hj, rfl⟩ := List.getElem?_eq_some_iff.1 hy
  by_contra ge
  rcases Nat.lt_or_eq_of_le (Nat.not_lt.1 ge) with after | same
  · have := List.pairwise_iff_getElem.1 ascending j i hj hi after
    omega
  · subst same
    omega

/-- The slot of a touched integer. -/
theorem slotOf?_of_int {i j : Nat} (h : (touchedOf .int32 declared touched)[j]? = some i) :
    (of count declared touched).slotOf? (.var i) = some (count + j) := by
  simp only [slotOf?, of, (idxOf?_eq_some_iff_of_nodup (nodup_touchedOf ..)).2 h]

/-- The slot of a touched single-precision number. -/
theorem slotOf?_of_float {i j : Nat} (h : (touchedOf .float32 declared touched)[j]? = some i) :
    (of count declared touched).slotOf? (.var i) =
      some (count + (touchedOf .int32 declared touched).length + j) := by
  have isFloat := (mem_touchedOf.1 (List.mem_of_getElem? h)).1
  have notInt : (touchedOf .int32 declared touched).idxOf? i = none := by
    refine List.idxOf?_eq_none_iff.2 fun mem => ?_
    cases isFloat.symm.trans (mem_touchedOf.1 mem).1
  simp only [slotOf?, of, notInt, (idxOf?_eq_some_iff_of_nodup (nodup_touchedOf ..)).2 h,
    Option.map_some]

end SlotLayout

end WasmForge

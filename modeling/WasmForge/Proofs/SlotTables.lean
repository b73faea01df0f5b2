import Mathlib
import WasmForge.Proofs.Assembling

/-!
# The slots of a body

Whatever an assembler was asked for, the slots of its body are the parameters followed by the
declared locals that the body touches, without a gap: integers first, then single-precision numbers,
each in declaration order.

The slots can be found in two passes over the touched locals, one for each type, each of which looks
up the type of every touched local.  No look-up fails, and the table that the passes fill is the
layout.  A roster keeps the touched locals in a set, which it extends by one instruction after the
other, so that the passes need not go through the code.

* `Assembler.Arranged`: what the slots of a body are like.
* `Program.slots_arranged`: the slots of every body are like that.
* `SlotTable.fill?`: the two passes.
* `Assembler.roster_perform`: a step of a roster is a step of a body.
* `Assembler.Assembled.fill?_roster`: for every body the passes succeed and give the slots of its
  layout.
-/

namespace WasmForge

/-! ## Groups -/

namespace SlotLayout

/-- The groups of a layout stand for the types of its integers, then of its single-precision
numbers. -/
theorem flatMap_groups (s : SlotLayout) :
    (s.groups.flatMap fun (count, t) => List.replicate count t) =
      List.replicate s.ints.length .int32 ++ List.replicate s.floats.length .float32 := by
  unfold groups
  cases s.ints <;> cases s.floats <;> simp

theorem sum_groups (s : SlotLayout) :
    (s.groups.map (·.1)).sum = s.ints.length + s.floats.length := by
  unfold groups
  cases s.ints <;> cases s.floats <;> simp

theorem pos_of_mem_groups {s : SlotLayout} {g : Nat × ValueType} (mem : g ∈ s.groups) :
    0 < g.1 := by
  simpa using (List.mem_filter.1 mem).2

end SlotLayout

namespace Assembler

variable {a : Assembler}

/-! ## What a body touches -/

/-- Does an instruction of the body name a local at the place? -/
def Touches (a : Assembler) (place : Place) : Prop :=
  ∃ i ∈ a.code, ∃ l ∈ i.local?, l.place = place

/-- The positions of the declared locals of a type that the body touches. -/
def touchedLocals (a : Assembler) (d : Declaration) (t : ValueType) : Set Nat :=
  {i | a.Touches (.var i) ∧ d.locals[i]? = some t}

/-- Is the place that of a parameter, or does the body touch the declared local there? -/
def InUse (a : Assembler) (d : Declaration) : Place → Prop
  | .param i => i < d.params.length
  | .var i => a.Touches (.var i)

theorem mem_touched {i : Nat} : i ∈ a.code.filterMap touchedVar? ↔ a.Touches (.var i) := by
  have one : ∀ j : SymbolicInstr, touchedVar? j = some i ↔ ∃ l ∈ j.local?, l.place = .var i := by
    intro j
    cases j with
    | op o =>
      cases o with
      | localGet l | localSet l =>
        obtain ⟨owner, place⟩ := l
        cases place <;> simp [touchedVar?, Instr.local?, Op.local?]
      | _ => simp [touchedVar?, Instr.local?, Op.local?]
    | _ => simp [touchedVar?, Instr.local?]
  rw [List.mem_filterMap]
  exact exists_congr fun j => and_congr_right fun _ => one j

/-- Touched locals are declared and hold values. -/
theorem Assembled.typed (assembled : a.Assembled) (tidy : a.scope.decl.Tidy) {i : Nat}
    (touched : a.Touches (.var i)) :
    i ∈ a.touchedLocals a.scope.decl .int32 ∨ i ∈ a.touchedLocals a.scope.decl .float32 := by
  obtain ⟨j, mem, l, named, place⟩ := id touched
  obtain ⟨-, t, declared⟩ := assembled.declared mem named
  have storable := tidy.storable _ t declared
  rw [place] at declared
  cases t with
  | void => cases storable
  | int32 => exact .inl ⟨touched, declared⟩
  | float32 => exact .inr ⟨touched, declared⟩

/-! ## Arrangement -/

/-- What the slots of a body are like.  The body is that of the function `f` of the program, which
the program declares by `d`. -/
structure Arranged (p : Program) (f : FuncRef) (d : Declaration) (a : Assembler) : Prop where
  /-- The places in use have the first slots, each its own. -/
  bijective : Set.BijOn a.layout.slotOf? {x | a.InUse d x}
    (some '' Set.Iio (d.params.length + (a.touchedLocals d .int32).ncard +
      (a.touchedLocals d .float32).ncard))
  /-- Parameters have the slots of their positions. -/
  params : ∀ i < d.params.length, a.layout.slotOf? (.param i) = some i
  /-- Integers come before single-precision numbers. -/
  typeOrder : ∀ i ∈ a.touchedLocals d .int32, ∀ j ∈ a.touchedLocals d .float32, ∀ k m,
    a.layout.slotOf? (.var i) = some k → a.layout.slotOf? (.var j) = some m → k < m
  /-- Locals of one type come in declaration order. -/
  declarationOrder : ∀ t, ∀ i ∈ a.touchedLocals d t, ∀ j ∈ a.touchedLocals d t, i < j → ∀ k m,
    a.layout.slotOf? (.var i) = some k → a.layout.slotOf? (.var j) = some m → k < m
  /-- Places that are not in use have no slots. -/
  unused : ∀ x, ¬ a.InUse d x → a.layout.slotOf? x = none
  /-- The type at the slot of a local is the type of the local. -/
  types : ∀ x k, a.layout.slotOf? x = some k →
    ∃ t, (d.params.map (·.type) ++
        a.layout.groups.flatMap fun (count, t) => List.replicate count t)[k]? = some t ∧
      p.localType? ⟨f, x⟩ = some t
  /-- No group is empty. -/
  groups : ∀ g ∈ a.layout.groups, 0 < g.1
  /-- The groups are as large as the touched locals are many. -/
  counts : (a.layout.groups.map (·.1)).sum =
    (a.touchedLocals d .int32).ncard + (a.touchedLocals d .float32).ncard

/-- The touched locals of a type, in declaration order. -/
def touchedList (a : Assembler) (t : ValueType) : List Nat :=
  SlotLayout.touchedOf t a.scope.decl.locals (a.code.filterMap touchedVar?).contains

theorem mem_touchedList {t : ValueType} {i : Nat} :
    i ∈ a.touchedList t ↔ i ∈ a.touchedLocals a.scope.decl t := by
  rw [touchedList, SlotLayout.mem_touchedOf, List.contains_iff_mem, mem_touched]
  exact and_comm

theorem ncard_touchedLocals (a : Assembler) (t : ValueType) :
    (a.touchedLocals a.scope.decl t).ncard = (a.touchedList t).length := by
  have same : a.touchedLocals a.scope.decl t = ((a.touchedList t).toFinset : Set Nat) := by
    ext i
    rw [Finset.mem_coe, List.mem_toFinset, mem_touchedList]
  rw [same, Set.ncard_coe_finset]
  exact List.toFinset_card_of_nodup (SlotLayout.nodup_touchedOf ..)

theorem slotOf?_layout_int {i j : Nat} (h : (a.touchedList .int32)[j]? = some i) :
    a.layout.slotOf? (.var i) = some (a.scope.decl.params.length + j) :=
  SlotLayout.slotOf?_of_int h

theorem slotOf?_layout_float {i j : Nat} (h : (a.touchedList .float32)[j]? = some i) :
    a.layout.slotOf? (.var i) =
      some (a.scope.decl.params.length + (a.touchedList .int32).length + j) :=
  SlotLayout.slotOf?_of_float h

/-- A touched local stands somewhere in the list of its type. -/
theorem exists_getElem?_touchedList {t : ValueType} {i : Nat}
    (mem : i ∈ a.touchedLocals a.scope.decl t) :
    ∃ j < (a.touchedList t).length, (a.touchedList t)[j]? = some i := by
  obtain ⟨j, lt, rfl⟩ := List.mem_iff_getElem.1 (mem_touchedList.2 mem)
  exact ⟨j, lt, List.getElem?_eq_getElem lt⟩

/-- The places that have slots are those in use. -/
theorem Assembled.slotOf?_isSome_iff (assembled : a.Assembled) (tidy : a.scope.decl.Tidy)
    {x : Place} : (a.layout.slotOf? x).isSome = true ↔ a.InUse a.scope.decl x := by
  cases x with
  | param i => exact SlotLayout.slotOf?_isSome
  | var i =>
    constructor
    · intro some
      have touched := (SlotLayout.slotOf?_isSome.1 some).2
      exact mem_touched.1 (List.contains_iff_mem.1 touched)
    · intro touched
      rcases assembled.typed tidy touched with mem | mem
      · obtain ⟨j, -, at_j⟩ := exists_getElem?_touchedList mem
        rw [slotOf?_layout_int at_j]
        rfl
      · obtain ⟨j, -, at_j⟩ := exists_getElem?_touchedList mem
        rw [slotOf?_layout_float at_j]
        rfl

/-- A slot lies below the number of slots. -/
theorem slotOf?_lt {x : Place} {k : Nat} (slot : a.layout.slotOf? x = some k) :
    k < a.scope.decl.params.length + (a.touchedList .int32).length +
      (a.touchedList .float32).length := by
  unfold touchedList
  cases x with
  | param i =>
    obtain ⟨rfl, lt⟩ := SlotLayout.slotOf?_param_eq_some.1 slot
    omega
  | var i =>
    rcases SlotLayout.slotOf?_var_eq_some slot with ⟨j, at_j, rfl⟩ | ⟨j, at_j, rfl⟩
    · have inside := (List.getElem?_eq_some_iff.1 at_j).1
      omega
    · have inside := (List.getElem?_eq_some_iff.1 at_j).1
      omega

/-- Every number below the number of slots is a slot. -/
theorem exists_slotOf?_eq {k : Nat}
    (lt : k < a.scope.decl.params.length + (a.touchedList .int32).length +
      (a.touchedList .float32).length) :
    ∃ x, a.layout.slotOf? x = some k := by
  by_cases param : k < a.scope.decl.params.length
  · exact ⟨.param k, SlotLayout.slotOf?_param_eq_some.2 ⟨rfl, param⟩⟩
  by_cases int : k < a.scope.decl.params.length + (a.touchedList .int32).length
  · have inside : k - a.scope.decl.params.length < (a.touchedList .int32).length := by omega
    refine ⟨.var _, (slotOf?_layout_int (List.getElem?_eq_getElem inside)).trans ?_⟩
    rw [Nat.add_sub_cancel' (by omega)]
  · have inside : k - (a.scope.decl.params.length + (a.touchedList .int32).length) <
        (a.touchedList .float32).length := by omega
    refine ⟨.var _, (slotOf?_layout_float (List.getElem?_eq_getElem inside)).trans ?_⟩
    rw [Nat.add_sub_cancel' (by omega)]

theorem Assembled.bijOn_slotOf? (assembled : a.Assembled) (tidy : a.scope.decl.Tidy) :
    Set.BijOn a.layout.slotOf? {x | a.InUse a.scope.decl x}
      (some '' Set.Iio (a.scope.decl.params.length + (a.touchedList .int32).length +
        (a.touchedList .float32).length)) := by
  refine ⟨?_, ?_, ?_⟩
  · intro x used
    obtain ⟨k, slot⟩ := Option.isSome_iff_exists.1 ((assembled.slotOf?_isSome_iff tidy).2 used)
    exact ⟨k, slotOf?_lt slot, slot.symm⟩
  · intro x used y _ same
    obtain ⟨k, slot⟩ := Option.isSome_iff_exists.1 ((assembled.slotOf?_isSome_iff tidy).2 used)
    exact SlotLayout.slotOf?_inj slot (same.symm.trans slot)
  · rintro _ ⟨k, lt, rfl⟩
    obtain ⟨x, slot⟩ := exists_slotOf?_eq lt
    refine ⟨x, (assembled.slotOf?_isSome_iff tidy).1 ?_, slot⟩
    rw [slot]
    rfl

/-- Integers come before single-precision numbers. -/
theorem slotOf?_int_lt_float {i j k m : Nat} (hi : i ∈ a.touchedLocals a.scope.decl .int32)
    (hj : j ∈ a.touchedLocals a.scope.decl .float32) (hk : a.layout.slotOf? (.var i) = some k)
    (hm : a.layout.slotOf? (.var j) = some m) : k < m := by
  obtain ⟨x, inside, at_x⟩ := exists_getElem?_touchedList hi
  obtain ⟨y, -, at_y⟩ := exists_getElem?_touchedList hj
  rw [slotOf?_layout_int at_x] at hk
  rw [slotOf?_layout_float at_y] at hm
  cases hk
  cases hm
  omega

/-- Locals of one type come in declaration order. -/
theorem slotOf?_strictMono {t : ValueType} (storable : t.isStorable = true) {i j k m : Nat}
    (hi : i ∈ a.touchedLocals a.scope.decl t) (hj : j ∈ a.touchedLocals a.scope.decl t)
    (lt : i < j) (hk : a.layout.slotOf? (.var i) = some k)
    (hm : a.layout.slotOf? (.var j) = some m) : k < m := by
  obtain ⟨x, -, at_x⟩ := exists_getElem?_touchedList hi
  obtain ⟨y, -, at_y⟩ := exists_getElem?_touchedList hj
  have order : x < y := SlotLayout.lt_of_getElem?_lt (SlotLayout.pairwise_touchedOf ..) at_x at_y lt
  cases t with
  | void => cases storable
  | int32 =>
    rw [slotOf?_layout_int at_x] at hk
    rw [slotOf?_layout_int at_y] at hm
    cases hk
    cases hm
    omega
  | float32 =>
    rw [slotOf?_layout_float at_x] at hk
    rw [slotOf?_layout_float at_y] at hm
    cases hk
    cases hm
    omega

/-- The type at a slot is the type of the place that has it. -/
theorem Assembled.getElem?_slot (assembled : a.Assembled) (tidy : a.scope.decl.Tidy) {x : Place}
    {k : Nat} (slot : a.layout.slotOf? x = some k) :
    ∃ t, (a.scope.decl.params.map (·.type) ++
        a.layout.groups.flatMap fun (count, t) => List.replicate count t)[k]? = some t ∧
      a.scope.decl.localType? x = some t := by
  have size : (a.scope.decl.params.map (·.type)).length = a.scope.decl.params.length :=
    List.length_map _
  have standing := SlotLayout.getElem?_slot_of size .int32 .float32 slot
  rw [show (a.layout.groups.flatMap fun (count, t) => List.replicate count t) = _ from
    a.layout.flatMap_groups]
  have used : a.InUse a.scope.decl x := by
    rw [← assembled.slotOf?_isSome_iff tidy, slot]
    rfl
  cases x with
  | param i =>
    have declared : a.scope.decl.params[i]? = some (a.scope.decl.params.get ⟨i, used⟩) :=
      List.getElem?_eq_getElem used
    refine ⟨(a.scope.decl.params.get ⟨i, used⟩).type, standing.trans ?_, ?_⟩
    · show (a.scope.decl.params.map (·.type))[i]? = _
      rw [List.getElem?_map, declared]
      rfl
    · rw [Declaration.localType?, declared]
      rfl
  | var i =>
    rcases assembled.typed tidy used with mem | mem
    · refine ⟨.int32, standing.trans ?_, mem.2⟩
      simp only [mem.2, Option.bind_some]
    · refine ⟨.float32, standing.trans ?_, mem.2⟩
      simp only [mem.2, Option.bind_some]

end Assembler

open Assembler in
/-- The slots of every body of a defined function are arranged. -/
theorem Program.slots_arranged {p : Program} (built : p.Built) {f : FuncRef} {d : Declaration}
    (known : p.get? f = some d) (defined : d.isImport = false) :
    ∃ first, Assembler.start p f = .ok first ∧
      ∀ commands, Arranged p f d (first.run commands) := by
  have started := Program.start_of_defined known defined
  refine ⟨_, started, ?_⟩
  intro commands
  have assembled := assembled_run started commands
  have tidy := tidy_run built started commands
  have scope := scope_run ⟨⟨p, f, d⟩, [], 0⟩ commands
  generalize Assembler.run _ commands = a at assembled tidy scope
  obtain rfl : a.scope.decl = d := by rw [scope]
  refine ⟨?_, ?_, ?_, ?_, ?_, ?_, ?_, ?_⟩
  · rw [ncard_touchedLocals, ncard_touchedLocals]
    exact assembled.bijOn_slotOf? tidy
  · exact fun i lt => SlotLayout.slotOf?_param_eq_some.2 ⟨rfl, lt⟩
  · exact fun i hi j hj k m => slotOf?_int_lt_float hi hj
  · intro t i hi j hj lt k m
    have storable : t.isStorable = true := tidy.storable (.var i) t hi.2
    exact slotOf?_strictMono storable hi hj lt
  · intro x unused
    rw [← assembled.slotOf?_isSome_iff tidy] at unused
    exact Option.not_isSome_iff_eq_none.1 unused
  · intro x k slot
    obtain ⟨t, at_k, type⟩ := assembled.getElem?_slot tidy slot
    refine ⟨t, at_k, ?_⟩
    rw [Program.localType?, known]
    exact type
  · exact fun g mem => SlotLayout.pos_of_mem_groups mem
  · rw [ncard_touchedLocals, ncard_touchedLocals]
    exact a.layout.sum_groups

/-- The second local of the exported function is touched first, then an undeclared one is refused,
then the first local is touched.  The second one, an integer, still has the earlier slot. -/
theorem Program.slots_arranged_sample :
    ∃ first d, Assembler.start sample ⟨7, 0⟩ = .ok first ∧
      (∀ commands, Assembler.Arranged sample ⟨7, 0⟩ d (first.run commands)) ∧
      (let own (place : Place) : Local := ⟨⟨7, 0⟩, place⟩
       let a := first.run [.instr (.get (own (.var 1))), .instr (.set (own (.var 2))),
         .expr (.var (own (.var 0)))]
       [Place.var 0, .var 1, .var 2, .param 1, .param 2].map a.layout.slotOf? =
         [some 3, some 2, none, some 1, none]) := by
  have known : sample.get? ⟨7, 0⟩ = some (sample.decls[0]) := by rfl
  obtain ⟨first, started, arranged⟩ := slots_arranged built_sample known rfl
  refine ⟨first, _, started, arranged, ?_⟩
  obtain ⟨d, declared, -, rfl⟩ := Assembler.start_eq_ok.1 started
  cases declared.symm.trans known
  decide

/-! ## Two passes -/

/-- A table of slots in the making. -/
structure SlotTable where
  /-- The slot of the declared local at each position, if it has one. -/
  slots : List (Option Nat)
  /-- The next slot. -/
  next : Nat
  deriving DecidableEq

namespace SlotTable

variable {declared : List ValueType} {used : List Nat} {type : ValueType} {t : SlotTable}

/-- Looks up the type of a touched local, and gives the local the next slot if that is the type of
the pass.  There is no result if nothing is declared at the position. -/
def visit? (declared : List ValueType) (type : ValueType) (t : SlotTable) (i : Nat) :
    Option SlotTable :=
  declared[i]?.map fun found =>
    if found = type then ⟨t.slots.set i (some t.next), t.next + 1⟩ else t

/-- Visits the touched locals, first to last. -/
def pass? (declared : List ValueType) (used : List Nat) (type : ValueType) (t : SlotTable) :
    Option SlotTable :=
  used.foldlM (visit? declared type) t

/-- The tables after a pass for the integers and after one more for the single-precision numbers,
when the first `count` slots are those of the parameters. -/
def fill? (count : Nat) (declared : List ValueType) (used : List Nat) :
    Option (SlotTable × SlotTable) := do
  let ints ← pass? declared used .int32 ⟨.replicate declared.length none, count⟩
  let floats ← pass? declared used .float32 ints
  return (ints, floats)

/-- The touched locals of a type, in the order of the pass. -/
def ofType (declared : List ValueType) (used : List Nat) (type : ValueType) : List Nat :=
  used.filter (declared[·]? = some type)

/-- What a pass does, when every touched local is declared and is visited once. -/
theorem pass?_eq_some (nodup : used.Nodup) (inside : ∀ i ∈ used, i < declared.length)
    (size : t.slots.length = declared.length) :
    ∃ slots, pass? declared used type t =
        some ⟨slots, t.next + (ofType declared used type).length⟩ ∧
      slots.length = declared.length ∧
      ∀ i, slots[i]? =
        match (ofType declared used type).idxOf? i with
        | some k => some (some (t.next + k))
        | none => t.slots[i]? := by
  -- no local is visited again, so the slot that a visit gives is not overwritten
  induction used generalizing t with
  | nil => exact ⟨t.slots, rfl, size, fun _ => rfl⟩
  | cons u used ih =>
    obtain ⟨fresh, nodup⟩ := List.nodup_cons.1 nodup
    obtain ⟨here, inside⟩ := List.forall_mem_cons.1 inside
    by_cases same : declared[u] = type
    · obtain ⟨slots, done, length, filled⟩ :=
        ih (t := ⟨t.slots.set u (some t.next), t.next + 1⟩) nodup inside (by simpa using size)
      have head : ofType declared (u :: used) type = u :: ofType declared used type := by
        simp [ofType, here, same]
      have step : visit? declared type t u = some ⟨t.slots.set u (some t.next), t.next + 1⟩ := by
        simp [visit?, here, same]
      refine ⟨slots, ?_, length, ?_⟩
      · rw [pass?, List.foldlM_cons, step, head]
        refine done.trans ?_
        simp only [List.length_cons]
        congr 2
        omega
      · intro i
        rw [filled, head, List.idxOf?_cons]
        by_cases now : u = i
        · subst now
          have absent : (ofType declared used type).idxOf? u = none := by
            refine List.idxOf?_eq_none_iff.2 fun mem => fresh (List.mem_filter.1 mem).1
          simp [absent, size, here]
        · cases (ofType declared used type).idxOf? i with
          | none => simp [now]
          | some k => simp [now]; omega
    · obtain ⟨slots, done, length, filled⟩ := ih nodup inside size
      have head : ofType declared (u :: used) type = ofType declared used type := by
        simp [ofType, here, same]
      have step : visit? declared type t u = some t := by
        simp [visit?, here, same]
      refine ⟨slots, ?_, length, ?_⟩
      · rw [pass?, List.foldlM_cons, step, head]
        exact done
      · rw [head]
        exact filled

/-- The two passes give the slots of a layout, when every touched local is declared and is visited
once. -/
theorem fill?_eq_some (count : Nat) (nodup : used.Nodup)
    (inside : ∀ i ∈ used, i < declared.length) :
    ∃ ints floats, fill? count declared used = some (ints, floats) ∧
      ints.next = count + (ofType declared used .int32).length ∧
      floats.next = ints.next + (ofType declared used .float32).length ∧
      ∀ i, floats.slots[i]?.join =
        (⟨count, ofType declared used .int32, ofType declared used .float32⟩ : SlotLayout).slotOf?
          (.var i) := by
  obtain ⟨first, done, size, filled⟩ :=
    pass?_eq_some (t := ⟨.replicate declared.length none, count⟩) nodup inside
      List.length_replicate
  obtain ⟨second, done', -, filled'⟩ := pass?_eq_some (t := ⟨first, _⟩) nodup inside size
  refine ⟨⟨first, _⟩, ⟨second, _⟩, ?_, rfl, rfl, ?_⟩
  · rw [fill?, done, Option.bind_eq_bind, Option.bind_some, done']
    rfl
  · intro i
    rw [filled', SlotLayout.slotOf?]
    cases float : (ofType declared used .float32).idxOf? i with
    | some k =>
      have isFloat : i ∈ ofType declared used .float32 := by
        rw [← List.isSome_idxOf?, float]
        rfl
      have notInt : (ofType declared used .int32).idxOf? i = none := by
        refine List.idxOf?_eq_none_iff.2 fun isInt => ?_
        have both := (List.mem_filter.1 isFloat).2
        simp_all [ofType]
      simp [notInt]
    | none =>
      rw [filled]
      cases (ofType declared used .int32).idxOf? i with
      | some k => rfl
      | none =>
        show (List.replicate declared.length none)[i]?.join = none
        rw [List.getElem?_replicate]
        split <;> rfl

end SlotTable

/-! ## Rosters -/

/-- A body that is being assembled, with the set of the declared locals that it touches kept beside
it. -/
structure Roster where
  /-- The body. -/
  body : Assembler
  /-- The positions of the declared locals that were touched. -/
  used : Finset Nat

namespace Roster

/-- Enters the declared local that an instruction touches. -/
def note (used : Finset Nat) (i : SymbolicInstr) : Finset Nat :=
  match Assembler.touchedVar? i with
  | some v => insert v used
  | none => used

/-- An empty body, which touches nothing. -/
def start (p : Program) (f : FuncRef) : Except EmitError Roster :=
  (Assembler.start p f).map fun body => ⟨body, ∅⟩

/-- Adds an instruction and enters its local. -/
def push (r : Roster) (i : SymbolicInstr) : Except EmitError Roster :=
  (r.body.push i).map fun body => ⟨body, note r.used i⟩

/-- Adds an emission, as far as it got, and enters the locals of its instructions, first to last. -/
def add {α : Type} (r : Roster) (e : Emission α) : Roster × Except EmitError α :=
  (⟨(r.body.add e).1, e.code.foldl note r.used⟩, e.outcome)

/-- The roster after a command, and whether the command was refused. -/
def perform (r : Roster) : Assembler.Command → Roster × Except EmitError Unit
  | .instr i =>
    match r.push i.symbolic with
    | .ok s => (s, .ok ())
    | .error e => (r, .error e)
  | .expr e => ((r.add (r.body.scope.expr e)).1, (r.body.scope.expr e).outcome.map fun _ => ())
  | .stmt c => r.add (r.body.scope.stmt c)
  | .stmts cs => r.add (r.body.scope.stmts cs)

/-- The roster after commands, first to last. -/
def run (r : Roster) (commands : List Assembler.Command) : Roster :=
  commands.foldl (fun r c => (r.perform c).1) r

/-- The tables of the two passes over the locals of the set, in ascending order. -/
def fill? (r : Roster) : Option (SlotTable × SlotTable) :=
  SlotTable.fill? r.body.scope.decl.params.length r.body.scope.decl.locals (r.used.sort (· ≤ ·))

end Roster

namespace Assembler

variable {a b : Assembler}

/-- A body, with the set of the declared locals that its code touches. -/
def roster (a : Assembler) : Roster := ⟨a, (a.code.filterMap touchedVar?).toFinset⟩

theorem mem_used {i : Nat} : i ∈ a.roster.used ↔ a.Touches (.var i) := by
  rw [roster, List.mem_toFinset, mem_touched]

theorem foldl_note (used : Finset Nat) (code : List SymbolicInstr) :
    code.foldl Roster.note used = used ∪ (code.filterMap touchedVar?).toFinset := by
  induction code generalizing used with
  | nil => simp
  | cons i code ih =>
    rw [List.foldl_cons, ih, Roster.note]
    cases touched : touchedVar? i with
    | none => rw [List.filterMap_cons_none touched]
    | some v =>
      rw [List.filterMap_cons_some touched, List.toFinset_cons, Finset.insert_union,
        Finset.union_insert]

/-- More code: the locals of its instructions are entered one after the other. -/
theorem roster_of_code {added : List SymbolicInstr} (code : b.code = a.code ++ added) :
    b.roster = ⟨b, added.foldl Roster.note a.roster.used⟩ := by
  rw [foldl_note, roster, roster, code, List.filterMap_append, List.toFinset_append]

theorem roster_start (p : Program) (f : FuncRef) :
    Roster.start p f = (Assembler.start p f).map roster := by
  rw [Roster.start, start]
  cases Scope.enter p f <;> rfl

theorem roster_push (a : Assembler) (i : SymbolicInstr) :
    a.roster.push i = (a.push i).map roster := by
  show (a.push i).map _ = _
  cases pushed : a.push i with
  | error e => rfl
  | ok b =>
    obtain ⟨-, -, k, -, rfl⟩ := push_eq_ok.1 pushed
    have entered : roster ⟨a.scope, a.code ++ [i], k⟩ =
        ⟨_, [i].foldl Roster.note a.roster.used⟩ := roster_of_code rfl
    exact congrArg Except.ok entered.symm

theorem roster_add {α : Type} (a : Assembler) (e : Emission α) :
    a.roster.add e = ((a.add e).1.roster, (a.add e).2) :=
  congrArg (·, e.outcome) (roster_of_code (a := a) rfl).symm

/-- A roster answers as the body does, and stays its roster. -/
theorem roster_perform (a : Assembler) (c : Command) :
    a.roster.perform c = ((a.perform c).1.roster, (a.perform c).2) := by
  cases c with
  | instr i =>
    rw [Roster.perform, perform, roster_push]
    cases a.push i.symbolic <;> rfl
  | expr e =>
    rw [Roster.perform, roster_add]
    rfl
  | stmt c => exact a.roster_add _
  | stmts cs => exact a.roster_add _

theorem roster_run (a : Assembler) (commands : List Command) :
    a.roster.run commands = (a.run commands).roster :=
  List.foldl_hom roster fun a c => congrArg Prod.fst (a.roster_perform c)

theorem ofType_used (a : Assembler) (t : ValueType) :
    SlotTable.ofType a.scope.decl.locals (a.roster.used.sort (· ≤ ·)) t = a.touchedList t := by
  refine List.Pairwise.eq_of_mem_iff (r := (· < ·)) ?_ (SlotLayout.pairwise_touchedOf ..) ?_
  · exact (Finset.sortedLT_sort _).pairwise.filter _
  · intro i
    rw [mem_touchedList, SlotTable.ofType, List.mem_filter, Finset.mem_sort, mem_used,
      decide_eq_true_iff]
    exact Iff.rfl

/-- For every body the two passes succeed, and they give the slots of its layout. -/
theorem Assembled.fill?_roster (assembled : a.Assembled) :
    ∃ ints floats, a.roster.fill? = some (ints, floats) ∧
      ints.next = a.scope.decl.params.length + a.layout.ints.length ∧
      floats.next = ints.next + a.layout.floats.length ∧
      ∀ i, floats.slots[i]?.join = a.layout.slotOf? (.var i) := by
  have inside : ∀ i ∈ a.roster.used.sort (· ≤ ·), i < a.scope.decl.locals.length := by
    intro i mem
    obtain ⟨j, mem, l, named, place⟩ := mem_used.1 ((Finset.mem_sort _).1 mem)
    obtain ⟨-, t, declared⟩ := assembled.declared mem named
    rw [place] at declared
    exact (List.getElem?_eq_some_iff.1 declared).1
  have filled := SlotTable.fill?_eq_some a.scope.decl.params.length
    (Finset.sort_nodup a.roster.used (· ≤ ·)) inside
  rw [ofType_used, ofType_used] at filled
  exact filled

end Assembler

end WasmForge

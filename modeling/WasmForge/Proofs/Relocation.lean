import Mathlib
import WasmForge.Proofs.RenamedTrees
import WasmForge.Proofs.SlotTables

/-!
# Bodies do not depend on where locals are declared

The bytes of a body are the same whether or not its function declares other locals that the body
does not use, and however integers and single-precision numbers take turns among the declarations.
Only the order among locals of one type can be seen, since it is the order of their slots.

* `Relocation`: the declared locals of a body are moved to other positions, each to one of its type,
  and those of one type stay in order.
* `Assembler.renamed_of_relocation`: locals keep their slots.
* `Program.lower_relocated`: the body keeps its bytes.
-/

namespace WasmForge

/-! ## Moving declared locals -/

/-- The local at another position, if it is a declared one. -/
def Local.relocate (ρ : Nat → Nat) : Local → Local
  | ⟨f, .param i⟩ => ⟨f, .param i⟩
  | ⟨f, .var i⟩ => ⟨f, .var (ρ i)⟩

/-- The statement with its declared locals at other positions. -/
def Stmt.relocate (ρ : Nat → Nat) (c : Stmt) : Stmt := c.relabel (Local.relocate ρ) id

/-- The positions of the declared locals in a statement. -/
def Stmt.positions (c : Stmt) : Set Nat := {i | ∃ l ∈ c.locals, l.place = .var i}

/-- The declaration with other locals, and with the declared locals in its body moved to other
positions. -/
def Declaration.relocate (ρ : Nat → Nat) (locals : List ValueType) (d : Declaration) :
    Declaration :=
  { d with locals, body := d.body.map (Stmt.relocate ρ) }

/-- Each of the positions goes to a position in another list of locals where the same type stands,
and positions of one type stay in order.  So different positions stay different. -/
structure Relocation (ρ : Nat → Nat) (old new : List ValueType) (positions : Set Nat) : Prop where
  /-- Types are kept. -/
  types : ∀ i ∈ positions, new[ρ i]? = old[i]?
  /-- The order within a type is kept. -/
  order : ∀ i ∈ positions, ∀ j ∈ positions, old[i]? = old[j]? → i < j → ρ i < ρ j

namespace Relocation

variable {ρ : Nat → Nat} {old new : List ValueType} {positions : Set Nat}

theorem mono (relocation : Relocation ρ old new positions) {fewer : Set Nat}
    (sub : fewer ⊆ positions) : Relocation ρ old new fewer :=
  ⟨fun i hi => relocation.types i (sub hi),
    fun i hi j hj => relocation.order i (sub hi) j (sub hj)⟩

/-- Different positions stay different: those of one type since they stay in order, and others since
different types stand there. -/
theorem injOn (relocation : Relocation ρ old new positions) : Set.InjOn ρ positions := by
  intro i hi j hj same
  have type : old[i]? = old[j]? := by
    rw [← relocation.types i hi, ← relocation.types j hj, same]
  rcases Nat.lt_trichotomy i j with before | here | after
  · have := relocation.order i hi j hj type before
    omega
  · exact here
  · have := relocation.order j hj i hi type.symm after
    omega

end Relocation

/-! ## Slots -/

/-- Renaming keeps the place of an element if no other element gets its new name. -/
theorem idxOf?_map_of_injOn {α β : Type} [DecidableEq α] [DecidableEq β] {g : α → β} {xs : List α}
    {a : α} (apart : ∀ x ∈ xs, g x = g a → x = a) : (xs.map g).idxOf? (g a) = xs.idxOf? a := by
  induction xs with
  | nil => rfl
  | cons x xs ih =>
    rw [List.forall_mem_cons] at apart
    rw [List.map_cons, List.idxOf?_cons, List.idxOf?_cons, ih apart.2]
    by_cases same : x = a
    · simp [same]
    · have other : g x ≠ g a := fun h => same (apart.1 h)
      simp [same, other]

namespace SlotLayout

variable {ρ : Nat → Nat} {old new : List ValueType} {touched : List Nat} {count : Nat}
  (relocation : Relocation ρ old new {i | i ∈ touched})

include relocation

/-- The touched locals of a type are the old ones, moved. -/
theorem touchedOf_relocation (type : ValueType) :
    touchedOf type new (touched.map ρ).contains = (touchedOf type old touched.contains).map ρ := by
  have mem_old : ∀ i, i ∈ touchedOf type old touched.contains ↔
      old[i]? = some type ∧ i ∈ touched := by
    intro i
    rw [mem_touchedOf, List.contains_iff_mem]
  have ascending : ((touchedOf type old touched.contains).map ρ).Pairwise (· < ·) := by
    rw [List.pairwise_map]
    refine (pairwise_touchedOf type old touched.contains).imp_of_mem ?_
    intro i j hi hj before
    obtain ⟨type_i, hi⟩ := (mem_old i).1 hi
    obtain ⟨type_j, hj⟩ := (mem_old j).1 hj
    exact relocation.order i hi j hj (type_i.trans type_j.symm) before
  refine (pairwise_touchedOf type new _).eq_of_mem_iff ascending ?_
  intro k
  rw [mem_touchedOf, List.contains_iff_mem, List.mem_map, List.mem_map]
  constructor
  · rintro ⟨typed, i, mem, rfl⟩
    rw [relocation.types i mem] at typed
    exact ⟨i, (mem_old i).2 ⟨typed, mem⟩, rfl⟩
  · rintro ⟨i, mem, rfl⟩
    obtain ⟨typed, mem⟩ := (mem_old i).1 mem
    exact ⟨(relocation.types i mem).trans typed, i, mem, rfl⟩

theorem of_relocation :
    of count new (touched.map ρ).contains =
      ⟨count, (of count old touched.contains).ints.map ρ,
        (of count old touched.contains).floats.map ρ⟩ := by
  rw [of, touchedOf_relocation relocation, touchedOf_relocation relocation]
  rfl

/-- A touched local keeps its slot. -/
theorem slotOf?_relocation {i : Nat} (mem : i ∈ touched) :
    (of count new (touched.map ρ).contains).slotOf? (.var (ρ i)) =
      (of count old touched.contains).slotOf? (.var i) := by
  have kept : ∀ type, ((touchedOf type old touched.contains).map ρ).idxOf? (ρ i) =
      (touchedOf type old touched.contains).idxOf? i := by
    intro type
    refine idxOf?_map_of_injOn fun j hj same => ?_
    have touched_j : j ∈ touched := List.contains_iff_mem.1 (mem_touchedOf.1 hj).2
    exact relocation.injOn touched_j mem same
  rw [of_relocation relocation]
  simp only [slotOf?, of, kept, List.length_map]

theorem localGroups_relocation :
    (of count new (touched.map ρ).contains).localGroups =
      (of count old touched.contains).localGroups := by
  rw [of_relocation relocation]
  simp only [localGroups, groups, List.length_map]

end SlotLayout

/-! ## Bodies -/

namespace Assembler

theorem touchedVar?_relocate (ρ : Nat → Nat) (i : SymbolicInstr) :
    touchedVar? (i.relabel (Local.relocate ρ) id) = (touchedVar? i).map ρ := by
  cases i with
  | op o =>
    cases o with
    | localGet l | localSet l =>
      obtain ⟨owner, place⟩ := l
      cases place <;> rfl
    | _ => rfl
  | _ => rfl

variable {p p' : Program} {f f' : FuncRef} {d d' : Declaration} {code : List SymbolicInstr}
  {ρ : Nat → Nat} {positions : Set Nat}

/-- The layout of moved code gives the locals in it their old slots. -/
theorem renamed_of_relocation (params : d'.params = d.params)
    (relocation : Relocation ρ d.locals d'.locals positions)
    (inside : ∀ l ∈ named ⟨⟨p, f, d⟩, code, 0⟩, ∀ i, l.place = .var i → i ∈ positions) :
    SlotLayout.Renamed (Local.relocate ρ) (named ⟨⟨p, f, d⟩, code, 0⟩)
      (layout ⟨⟨p, f, d⟩, code, 0⟩)
      (layout ⟨⟨p', f', d'⟩, code.map (Instr.relabel (Local.relocate ρ) id), 0⟩) := by
  have moved : (code.map (Instr.relabel (Local.relocate ρ) id)).filterMap touchedVar? =
      (code.filterMap touchedVar?).map ρ := by
    rw [List.filterMap_map, List.map_filterMap]
    exact List.filterMap_congr fun i _ => touchedVar?_relocate ρ i
  have touched : ∀ {i}, i ∈ code.filterMap touchedVar? ↔
      ∃ l ∈ named ⟨⟨p, f, d⟩, code, 0⟩, l.place = .var i := by
    intro i
    rw [show i ∈ code.filterMap touchedVar? ↔ _ from mem_touched (a := ⟨⟨p, f, d⟩, code, 0⟩)]
    constructor
    · rintro ⟨j, mem, l, named, place⟩
      exact ⟨l, ⟨j, mem, named⟩, place⟩
    · rintro ⟨l, ⟨j, mem, named⟩, place⟩
      exact ⟨j, mem, l, named, place⟩
  have fewer : Relocation ρ d.locals d'.locals {i | i ∈ code.filterMap touchedVar?} := by
    refine relocation.mono fun i mem => ?_
    obtain ⟨l, named, place⟩ := touched.1 mem
    exact inside l named i place
  unfold layout
  dsimp only
  rw [moved, params]
  refine ⟨SlotLayout.localGroups_relocation fewer, ?_⟩
  intro l mem
  obtain ⟨owner, place⟩ := l
  cases place with
  | param i => rfl
  | var i => exact SlotLayout.slotOf?_relocation fewer (touched.2 ⟨_, mem, rfl⟩)

end Assembler

section Functions

variable {p : Program} {f : FuncRef} {d : Declaration} {body : Stmt} {ρ : Nat → Nat}
  {new : List ValueType}

/-- In the function with other locals, moved locals and all callees mean what they mean in the
function as it is. -/
theorem Scope.matches_relocate (known : p.get? f = some d)
    (declared : ∀ l ∈ body.locals, l.owner = f ∧ (d.localType? l.place).isSome = true)
    (relocation : Relocation ρ d.locals new body.positions) :
    Scope.Matches (Local.relocate ρ) id {l | l ∈ body.locals} ⟨p, f, d⟩
      ⟨p.set f (d.relocate ρ new), f, d.relocate ρ new⟩ where
  result := rfl
  locals := by
    intro l mem
    obtain ⟨own, declared⟩ := declared l mem
    obtain ⟨t, type⟩ := Option.isSome_iff_exists.1 declared
    have type' : (d.relocate ρ new).localType? (l.relocate ρ).place = some t := by
      obtain ⟨owner, place⟩ := l
      cases place with
      | param i => exact type
      | var i => exact (relocation.types i ⟨_, mem, rfl⟩).trans type
    have own' : (l.relocate ρ).owner = f := by
      obtain ⟨owner, place⟩ := l
      cases place <;> exact own
    simp only [Scope.localType, own, own', type, type', if_true]
    exact .ok rfl
  callees := by
    intro g
    simp only [Scope.callee, id, Program.get?_set known]
    by_cases self : g = f
    · simp only [self, known, if_true]
      exact .ok ⟨rfl, rfl⟩
    · simp only [self, if_false]
      cases p.get? g with
      | some e => exact .ok ⟨rfl, rfl⟩
      | none => exact .error rfl

/-- A body whose locals are all declared in its function is lowered alike when the function declares
other locals and those of the body are moved there: the bytes are the same, or lowering fails in the
same way. -/
theorem Program.lower_relocated (known : p.get? f = some d) (has : d.body = some body)
    (declared : ∀ l ∈ body.locals, l.owner = f ∧ (d.localType? l.place).isSome = true)
    (relocation : Relocation ρ d.locals new body.positions) (n : Numbering) :
    (∃ bs, p.lower f d n = .ok bs ∧
      (p.set f (d.relocate ρ new)).lower f (d.relocate ρ new) n = .ok bs) ∨
    ∃ e e', p.lower f d n = .error e ∧
      (p.set f (d.relocate ρ new)).lower f (d.relocate ρ new) n = .error e' ∧ e.kind = e'.kind := by
  have alike : Alike Eq (p.lower f d n)
      ((p.set f (d.relocate ρ new)).lower f (d.relocate ρ new) n) := by
    refine alike_lower known (get?_set_self _ known) rfl rfl
      (Scope.matches_relocate known declared relocation) ?_ ?_ fun _ => rfl
    · intro body' has' l mem
      cases has.symm.trans has'
      exact mem
    · intro code within
      exact Assembler.renamed_of_relocation rfl relocation
        fun l mem i place => ⟨l, within mem, place⟩
  generalize p.lower f d n = x, (p.set f (d.relocate ρ new)).lower f (d.relocate ρ new) n = y
    at alike ⊢
  cases alike with
  | ok same =>
    subst same
    exact .inl ⟨_, rfl, rfl⟩
  | error same => exact .inr ⟨_, _, rfl, rfl, same⟩

/-- The locals of the exported function change places, with one more of each type that the body does
not use. -/
theorem Program.lower_relocated_sample :
    ∃ d bs, sample.get? ⟨7, 0⟩ = some d ∧ d.locals = [.float32, .int32] ∧
      (let moved := d.relocate (fun i => 3 - 2 * i) [.int32, .int32, .float32, .float32]
       sample.lower ⟨7, 0⟩ d .sample = .ok bs ∧
         (sample.set ⟨7, 0⟩ moved).lower ⟨7, 0⟩ moved .sample = .ok bs) := by
  have known : sample.get? ⟨7, 0⟩ = some (sample.decls[0]) := by rfl
  have declared : ∀ l ∈ sampleRun.locals,
      l.owner = ⟨7, 0⟩ ∧ ((sample.decls[0]).localType? l.place).isSome = true := by
    decide
  have positions : ∀ i ∈ sampleRun.positions, i < 2 := by
    rintro i ⟨l, mem, place⟩
    obtain ⟨t, type⟩ := Option.isSome_iff_exists.1 (declared l mem).2
    rw [place] at type
    exact (List.getElem?_eq_some_iff.1 type).1
  have relocation : Relocation (fun i => 3 - 2 * i) (sample.decls[0]).locals
      [.int32, .int32, .float32, .float32] sampleRun.positions := by
    constructor
    · intro i hi
      have := positions i hi
      interval_cases i <;> rfl
    · intro i hi j hj type before
      have := positions j hj
      interval_cases j <;> interval_cases i
      cases type
  have evaluated : (sample.lower ⟨7, 0⟩ (sample.decls[0]) .sample).toBool = true := by
    decide +kernel
  rcases lower_relocated known rfl declared relocation .sample with ⟨bs, same⟩ | ⟨e, _, failed, -⟩
  · exact ⟨_, bs, known, rfl, same⟩
  · rw [failed] at evaluated
    cases evaluated

end Functions

end WasmForge

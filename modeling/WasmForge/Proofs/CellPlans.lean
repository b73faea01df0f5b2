import Mathlib
import WasmForge.Machine.CellPlan
import WasmForge.Proofs.Linking

/-!
# Short bodies have a plan

Cells have numbers of 16 bits, so there are bodies that no plan can be made for.  Each instruction
fills at most one more cell, though, and leads to at most one more constant, so a body without
constructs has a plan if its locals and instructions together are fewer than `CellPlan.cellBound`.

* `CellPlan.Costs`: how much a step may fill.
* `CellPlan.exists_step`: one stream item.
* `CellPlan.cells?_isSome_of_short`: a whole body.
-/

namespace WasmForge

namespace CellPlan

variable {p q r : CellPlan} {ctx : Context}

/-- Is the operand a constant? -/
def Operand.isConstant : Operand → Bool
  | constant _ => true
  | _ => false

/-- The number of temporaries and copies. -/
def filled (p : CellPlan) : Nat := p.temporaries + p.copies

/-- The number of constants that have a cell, or may need one. -/
def waiting (p : CellPlan) : Nat := p.constants.length + p.operands.countP (·.isConstant)

/-- On the way from `p` to `q`, at most `cells` cells are filled and at most `constants` constants
are met. -/
structure Costs (p q : CellPlan) (cells constants : Nat) : Prop where
  /-- Locals stay where they are. -/
  locals : q.locals = p.locals
  /-- No construct is opened. -/
  constructs : q.constructs = p.constructs
  /-- The cells that are filled. -/
  filled : q.filled ≤ p.filled + cells
  /-- The constants that are met. -/
  waiting : q.waiting ≤ p.waiting + constants

/-- There is room for one more of each. -/
structure Roomy (p : CellPlan) : Prop where
  /-- Cells. -/
  cells : p.locals + p.filled + 1 < cellBound
  /-- Constants. -/
  constants : p.waiting < maxConstants

theorem Costs.refl (p : CellPlan) : Costs p p 0 0 :=
  ⟨rfl, rfl, Nat.le_refl _, Nat.le_refl _⟩

theorem Costs.trans {a b c d : Nat} (first : Costs p q a b) (second : Costs q r c d) :
    Costs p r (a + c) (b + d) := by
  have cells := first.filled
  have constants := first.waiting
  have cells' := second.filled
  have constants' := second.waiting
  exact ⟨second.locals.trans first.locals, second.constructs.trans first.constructs, by omega,
    by omega⟩

theorem Costs.mono {a b c d : Nat} (costs : Costs p q a b) (cells : a ≤ c) (constants : b ≤ d) :
    Costs p q c d :=
  ⟨costs.locals, costs.constructs, costs.filled.trans (Nat.add_le_add_left cells _),
    costs.waiting.trans (Nat.add_le_add_left constants _)⟩

theorem Costs.roomy (costs : Costs p q 0 0) (room : p.Roomy) : q.Roomy := by
  have cells := costs.filled
  have constants := costs.waiting
  have enough := room.cells
  have few := room.constants
  exact ⟨by rw [costs.locals]; omega, by omega⟩

/-! ## Operands -/

theorem costs_popMany (p : CellPlan) (n : Nat) : Costs p (p.popMany n) 0 0 := by
  refine ⟨rfl, rfl, ?_, ?_⟩
  · show p.temporaries - _ + p.copies ≤ p.temporaries + p.copies + 0
    omega
  · show p.constants.length + (p.operands.drop n).countP _ ≤ _
    exact Nat.add_le_add_left ((List.drop_sublist n p.operands).countP_le) _

theorem costs_push (p : CellPlan) (o : Operand) : Costs p (p.push o) 0 1 := by
  refine ⟨rfl, rfl, Nat.le_refl _, ?_⟩
  show p.constants.length + (o :: p.operands).countP _ ≤
    p.constants.length + p.operands.countP _ + 1
  rw [List.countP_cons]
  split <;> omega

theorem exists_pushTemporary (room : p.locals + p.filled + 1 < cellBound) :
    ∃ q, p.pushTemporary = some q ∧ Costs p q 1 0 := by
  have used : p.used < cellBound := by
    unfold filled at room
    unfold used
    omega
  refine ⟨_, if_pos used, rfl, rfl, ?_, Nat.le_refl _⟩
  show p.temporaries + 1 + p.copies ≤ p.temporaries + p.copies + 1
  omega

theorem exists_pushTemporaries {n : Nat} (few : n ≤ 1)
    (room : p.locals + p.filled + 1 < cellBound) :
    ∃ q, p.pushTemporaries n = some q ∧ Costs p q 1 0 := by
  have used : p.used + n < cellBound := by
    unfold filled at room
    unfold used
    omega
  have pushed : p.pushTemporaries n = some { p.withTemporaries n with
      operands := List.replicate n .temporary ++ p.operands
      temporaries := p.temporaries + n } := by
    rw [pushTemporaries, reserve, if_pos used]
    rfl
  refine ⟨_, pushed, rfl, rfl, ?_, ?_⟩
  · show p.temporaries + n + p.copies ≤ p.temporaries + p.copies + 1
    omega
  · show p.constants.length + (List.replicate n Operand.temporary ++ p.operands).countP _ ≤ _
    rw [List.countP_append, List.countP_replicate]
    exact Nat.le_of_eq (by simp [waiting, Operand.isConstant])

theorem exists_pushBack (room : p.Roomy) (o : Operand) :
    ∃ q, p.pushBack o = some q ∧ Costs p q 1 1 := by
  cases o with
  | temporary =>
    obtain ⟨q, pushed, costs⟩ := exists_pushTemporary room.cells
    exact ⟨q, pushed, costs.mono (Nat.le_refl _) (Nat.zero_le _)⟩
  | constant v | inLocal i | copied k =>
    exact ⟨_, rfl, (costs_push p _).mono (Nat.zero_le _) (Nat.le_refl _)⟩

/-! ## Constants -/

theorem exists_addConstant (v : Value) (room : p.constants.length < maxConstants) :
    ∃ cs, p.addConstant v = some { p with constants := cs } ∧
      cs.length ≤ p.constants.length + 1 := by
  unfold addConstant
  split
  · exact ⟨p.constants, rfl, Nat.le_succ _⟩
  · exact ⟨_, rfl, Nat.le_refl _⟩

theorem exists_addConstants (os : List Operand)
    (room : p.constants.length + os.countP (·.isConstant) ≤ maxConstants) :
    ∃ cs, p.addConstants os = some { p with constants := cs } ∧
      cs.length ≤ p.constants.length + os.countP (·.isConstant) := by
  induction os generalizing p with
  | nil => exact ⟨p.constants, rfl, Nat.le_refl _⟩
  | cons o os ih =>
    rw [addConstants, List.foldlM_cons]
    cases o with
    | constant v =>
      rw [List.countP_cons_of_pos rfl] at room ⊢
      obtain ⟨cs, added, few⟩ := exists_addConstant (p := p) v (by omega)
      obtain ⟨ds, rest, fewer⟩ := ih (p := { p with constants := cs }) (by dsimp only; omega)
      dsimp only at fewer
      refine ⟨ds, ?_, by omega⟩
      dsimp only
      rw [added, Option.bind_eq_bind, Option.bind_some]
      exact rest
    | inLocal i | temporary | copied k =>
      rw [List.countP_cons_of_neg (by simp [Operand.isConstant])] at room ⊢
      exact ih room

theorem costs_addConstant (v : Value) (room : p.Roomy) :
    ∃ q, p.addConstant v = some q ∧ Costs p q 0 1 := by
  have few : p.constants.length < maxConstants := (Nat.le_add_right _ _).trans_lt room.constants
  obtain ⟨cs, added, more⟩ := exists_addConstant v few
  refine ⟨_, added, rfl, rfl, Nat.le_refl _, ?_⟩
  show cs.length + p.operands.countP _ ≤ p.constants.length + p.operands.countP _ + 1
  omega

theorem exists_addConstant_pushTemporary (v : Value) (room : p.Roomy) :
    ∃ q, (p.addConstant v >>= pushTemporary) = some q ∧ Costs p q 1 1 := by
  obtain ⟨mid, added, first⟩ := costs_addConstant v room
  have enough : mid.locals + mid.filled + 1 < cellBound := by
    have := first.filled
    have := room.cells
    rw [first.locals]
    omega
  obtain ⟨q, pushed, second⟩ := exists_pushTemporary enough
  exact ⟨q, by rw [added]; exact pushed, first.trans second⟩

/-- The values of a return. -/
theorem exists_move {n : Nat} (few : n ≤ 1) (room : p.Roomy) :
    ∃ q, p.move n = some q ∧ Costs p q 0 1 := by
  unfold move
  split
  · split
    · exact ⟨p, rfl, (Costs.refl p).mono (Nat.le_refl _) (Nat.zero_le _)⟩
    · exact costs_addConstant _ room
  · have count : (p.operands.take n).countP (·.isConstant) ≤ 1 :=
      List.countP_le_length.trans ((List.length_take_le n p.operands).trans few)
    have fewer : p.constants.length < maxConstants := (Nat.le_add_right _ _).trans_lt room.constants
    obtain ⟨cs, added, more⟩ := exists_addConstants (p := p) (p.operands.take n) (by omega)
    refine ⟨_, added, rfl, rfl, Nat.le_refl _, ?_⟩
    show cs.length + p.operands.countP _ ≤ p.constants.length + p.operands.countP _ + 1
    omega

/-- The arguments of a call: the constants among them are given cells, and are operands no
longer. -/
theorem exists_arguments (n : Nat) (room : p.Roomy) :
    ∃ q, p.addConstants (p.operands.take n) = some q ∧ Costs p (q.popMany n) 0 0 := by
  have split : p.operands.countP (·.isConstant) =
      (p.operands.take n).countP (·.isConstant) + (p.operands.drop n).countP (·.isConstant) := by
    rw [← List.countP_append, List.take_append_drop]
  have few := room.constants
  unfold waiting at few
  obtain ⟨cs, added, more⟩ := exists_addConstants (p := p) (p.operands.take n) (by omega)
  refine ⟨_, added, rfl, rfl, (costs_popMany p n).filled, ?_⟩
  show cs.length + (p.operands.drop n).countP _ ≤ p.constants.length + p.operands.countP _ + 0
  omega

/-! ## Locals -/

theorem freeCopy_le (p : CellPlan) : p.freeCopy ≤ p.copies := by
  unfold freeCopy
  cases found : (List.range p.copies).find? fun k => !p.operands.contains (.copied k) with
  | none => exact Nat.le_refl _
  | some k => exact (List.mem_range.1 (List.mem_of_find?_eq_some found)).le

theorem exists_copyLocal (room : p.locals + p.filled + 1 < cellBound) (index : Nat) :
    ∃ q, p.copyLocal index = some q ∧ Costs p q 1 0 := by
  unfold copyLocal
  split
  · have free := freeCopy_le p
    unfold filled at room
    have copies : max p.copies (p.freeCopy + 1) ≤ p.copies + 1 := by omega
    have enough : p.locals + p.temporaries + max p.copies (p.freeCopy + 1) ≤ cellBound := by omega
    dsimp only
    rw [if_pos enough]
    refine ⟨_, rfl, rfl, rfl, ?_, ?_⟩
    · show p.temporaries + max p.copies _ ≤ p.temporaries + p.copies + 1
      omega
    · -- what is copied is not a constant, before or after
      show p.constants.length + (p.operands.map _).countP _ ≤ p.constants.length + _ + 0
      rw [List.countP_map]
      refine Nat.add_le_add_left (Nat.le_of_eq (List.countP_congr fun o _ => ?_)) _
      by_cases same : o = .inLocal index <;> simp [same, Operand.isConstant]
  · exact ⟨p, rfl, (Costs.refl p).mono (Nat.zero_le _) (Nat.le_refl _)⟩

/-! ## Arithmetic -/

theorem exists_withInt (room : p.Roomy) (op : Arith) (o : Operand) (v : Int32) :
    ∃ q, p.withInt op o v = some q ∧ Costs p q 1 1 := by
  obtain ⟨q, pushed, costs⟩ := exists_pushTemporary room.cells
  have temporary : ∃ q, p.pushTemporary = some q ∧ Costs p q 1 1 :=
    ⟨q, pushed, costs.mono (Nat.le_refl _) (Nat.zero_le _)⟩
  have zero : ∃ q, some (p.push (.constant (.i32 0))) = some q ∧ Costs p q 1 1 :=
    ⟨_, rfl, (costs_push p _).mono (Nat.zero_le _) (Nat.le_refl _)⟩
  unfold withInt
  split
  · split
    · exact exists_pushBack room o
    · split
      · exact temporary
      · exact exists_addConstant_pushTemporary _ room
  · split
    · exact zero
    · split
      · exact exists_pushBack room o
      · split
        · exact temporary
        · exact exists_addConstant_pushTemporary _ room

theorem exists_withSingle (room : p.Roomy) (v : Single) :
    ∃ q, p.withSingle v = some q ∧ Costs p q 1 1 := by
  unfold withSingle
  split
  · exact ⟨_, rfl, (costs_push p _).mono (Nat.zero_le _) (Nat.le_refl _)⟩
  · exact exists_addConstant_pushTemporary _ room

variable [SingleArith]

theorem exists_arith (room : p.Roomy) (op : Arith) : ∃ q, p.arith op = some q ∧ Costs p q 1 1 := by
  have popped := costs_popMany p 2
  have left := popped.roomy room
  have after : ∀ {x : Option CellPlan}, (∃ q, x = some q ∧ Costs (p.popMany 2) q 1 1) →
      ∃ q, x = some q ∧ Costs p q 1 1 := by
    rintro x ⟨q, given, costs⟩
    exact ⟨q, given, by simpa using popped.trans costs⟩
  have pushed : ∀ o, ∃ q, some ((p.popMany 2).push o) = some q ∧ Costs (p.popMany 2) q 1 1 :=
    fun o => ⟨_, rfl, (costs_push _ o).mono (Nat.zero_le _) (Nat.le_refl _)⟩
  unfold arith
  dsimp only
  split
  · exact after (pushed _)
  · exact after (pushed _)
  · exact after (exists_withInt left ..)
  · exact after (exists_withInt left ..)
  · exact after (exists_withSingle left _)
  · exact after (exists_withSingle left _)
  · obtain ⟨q, given, costs⟩ := exists_pushTemporary left.cells
    exact after ⟨q, given, costs.mono (Nat.le_refl _) (Nat.zero_le _)⟩

/-! ## Bodies -/

/-- The stream item has no construct in it, and calls known functions with one result at most. -/
inductive Plain (ctx : Context) : Instr Nat Nat → Prop where
  /-- An instruction. -/
  | op {o : Op Nat Nat} (straight : o.branch? = none)
      (calls : ∀ f, o = .call f → ∃ type, ctx.funcType? f = some type ∧ type.results.length ≤ 1) :
      Plain ctx (.op o)
  /-- The end of the function. -/
  | close : Plain ctx .close

theorem exists_stepOp {o : Op Nat Nat} (one : ctx.results ≤ 1) (straight : o.branch? = none)
    (calls : ∀ f, o = .call f → ∃ type, ctx.funcType? f = some type ∧ type.results.length ≤ 1)
    (room : p.Roomy) : ∃ q, p.stepOp ctx o = some q ∧ Costs p q 1 1 := by
  have unchanged : Costs p p 1 1 := (Costs.refl p).mono (Nat.zero_le _) (Nat.zero_le _)
  have pushed : ∀ o, ∃ q, some (p.push o) = some q ∧ Costs p q 1 1 :=
    fun o => ⟨_, rfl, (costs_push p o).mono (Nat.zero_le _) (Nat.le_refl _)⟩
  cases o with
  | unreachable => exact ⟨_, rfl, unchanged.locals, rfl, unchanged.filled, unchanged.waiting⟩
  | nop => exact ⟨p, rfl, unchanged⟩
  | br label => cases straight
  | brIf label => cases straight
  | ret =>
    obtain ⟨q, moved, costs⟩ := exists_move one room
    refine ⟨q.leave, by rw [stepOp, moved]; rfl, costs.locals, costs.constructs, ?_, costs.waiting⟩
    exact costs.filled.trans (Nat.le_succ _)
  | call f =>
    obtain ⟨type, known, few⟩ := calls f rfl
    obtain ⟨mid, added, first⟩ := exists_arguments type.params.length room
    obtain ⟨q, given, second⟩ := exists_pushTemporaries few (first.roomy room).cells
    refine ⟨q, ?_, by simpa using (first.trans second).mono (Nat.le_refl _) (Nat.zero_le 1)⟩
    simp only [stepOp, known, added, Option.bind_eq_bind, Option.bind_some, given]
  | drop => exact ⟨_, rfl, (costs_popMany p 1).mono (Nat.zero_le _) (Nat.zero_le _)⟩
  | localGet i => exact pushed _
  | localSet i =>
    have popped := costs_popMany p 1
    have left := popped.roomy room
    obtain ⟨q, copied, costs⟩ := exists_copyLocal left.cells i
    have set : ∃ q, (p.popMany 1).copyLocal i = some q ∧ Costs p q 1 1 :=
      ⟨q, copied, by simpa using (popped.trans costs).mono (Nat.le_refl _) (Nat.zero_le 1)⟩
    unfold stepOp
    dsimp only
    split
    · split
      · exact ⟨_, rfl, popped.mono (Nat.zero_le _) (Nat.zero_le _)⟩
      · exact set
    · rename_i v _ _
      rw [copied, Option.bind_eq_bind, Option.bind_some]
      split
      · exact ⟨q, rfl, by simpa using (popped.trans costs).mono (Nat.le_refl _) (Nat.zero_le 1)⟩
      · have few : q.constants.length < maxConstants := by
          have := costs.waiting
          have := left.constants
          unfold waiting at *
          omega
        obtain ⟨cs, added, more⟩ := exists_addConstant v few
        have both := popped.trans costs
        refine ⟨_, added, both.locals, both.constructs, both.filled, ?_⟩
        have total := both.waiting
        show cs.length + q.operands.countP _ ≤ p.waiting + 1
        unfold waiting at *
        omega
    · exact set
  | i32Const v => exact pushed _
  | i64Const v => exact pushed _
  | f32Const v => exact pushed _
  | f64Const v => exact pushed _
  | i32Arith op => exact exists_arith room op
  | f32Arith op => exact exists_arith room op

/-- Outside of constructs, each stream item fills one cell at most. -/
theorem exists_step {i : Instr Nat Nat} (one : ctx.results ≤ 1) (plain : Plain ctx i)
    (outside : p.constructs = []) (room : p.Roomy) :
    ∃ q, p.step ctx i = some q ∧ Costs p q 1 1 := by
  have unchanged : ∃ q, some p = some q ∧ Costs p q 1 1 :=
    ⟨p, rfl, (Costs.refl p).mono (Nat.zero_le _) (Nat.zero_le _)⟩
  cases plain with
  | op straight calls =>
    rw [step]
    split
    · exact exists_stepOp one straight calls room
    · exact unchanged
  | close =>
    simp only [step, outside]
    split
    · obtain ⟨q, moved, costs⟩ := exists_move one room
      exact ⟨q, moved, costs.mono (Nat.zero_le _) (Nat.le_refl _)⟩
    · exact unchanged

theorem exists_steps {body : List (Instr Nat Nat)} (one : ctx.results ≤ 1)
    (plain : ∀ i ∈ body, Plain ctx i) (outside : p.constructs = [])
    (cells : p.locals + p.filled + body.length < cellBound)
    (constants : p.waiting + body.length ≤ maxConstants) :
    ∃ q, body.foldlM (step ctx) p = some q := by
  induction body generalizing p with
  | nil => exact ⟨p, rfl⟩
  | cons i body ih =>
    rw [List.forall_mem_cons] at plain
    rw [List.length_cons] at cells constants
    obtain ⟨q, once, costs⟩ := exists_step one plain.1 outside ⟨by omega, by omega⟩
    have filled := costs.filled
    have waiting := costs.waiting
    obtain ⟨last, rest⟩ := ih plain.2 (costs.constructs.trans outside)
      (by rw [costs.locals]; omega) (by omega)
    exact ⟨last, by rw [List.foldlM_cons, once]; exact rest⟩

/-- A body without constructs has a plan if it is not too long for its locals. -/
theorem cells?_isSome_of_short {locals : Nat} {body : List (Instr Nat Nat)} (one : ctx.results ≤ 1)
    (plain : ∀ i ∈ body, Plain ctx i) (short : locals + body.length < cellBound) :
    (cells? ctx locals body).isSome = true := by
  have few : locals < cellBound := by omega
  have bounds : cellBound ≤ maxConstants := by decide
  obtain ⟨first, started, outside, same, filled, waiting⟩ : ∃ first, start locals = some first ∧
      first.constructs = [] ∧ first.locals = locals ∧ first.filled = 0 ∧ first.waiting = 0 :=
    ⟨_, if_pos few, rfl, rfl, rfl, rfl⟩
  obtain ⟨last, followed⟩ := exists_steps one plain outside (by omega) (by omega)
  rw [cells?, started, Option.bind_eq_bind, Option.bind_some, followed]
  rfl

end CellPlan

end WasmForge

import Mathlib
import WasmForge.Proofs.Acceptance
import WasmForge.Proofs.SlotTables

/-!
# The format of finished bodies

A body can be finished exactly when the constructs that were opened and closed are balanced and
every callee has an index.  Its bytes are then read back as the instructions that were added, with
numbers in place of handles and one more item that ends the function.

* `Instr.NumberedAs`: an instruction with numbers in place of handles.
* `WellNested`: a stream whose last item, and no earlier one, ends the function.
* `Assembler.accepted`: the commands that were not refused.
* `Program.finish_decodes`: when a body can be finished, and what its bytes stand for.
-/

namespace WasmForge

/-! ## Numbers for handles -/

/-- The second stream item is the first one with the slot in place of a local, the index in place of
a function, and everything else the same. -/
inductive Instr.NumberedAs (slot : Local → Option Nat) (index : FuncRef → Option Nat) :
    SymbolicInstr → Instr Nat Nat → Prop where
  | localGet {l : Local} {k : Nat} (at_slot : slot l = some k) :
    NumberedAs slot index (.op (.localGet l)) (.op (.localGet k))
  | localSet {l : Local} {k : Nat} (at_slot : slot l = some k) :
    NumberedAs slot index (.op (.localSet l)) (.op (.localSet k))
  | call {f : FuncRef} {k : Nat} (at_index : index f = some k) :
    NumberedAs slot index (.op (.call f)) (.op (.call k))
  | i32Const (v : Int32) : NumberedAs slot index (.op (.i32Const v)) (.op (.i32Const v))
  | i64Const (v : Int64) : NumberedAs slot index (.op (.i64Const v)) (.op (.i64Const v))
  | f32Const (v : Single) : NumberedAs slot index (.op (.f32Const v)) (.op (.f32Const v))
  | f64Const (v : UInt64) : NumberedAs slot index (.op (.f64Const v)) (.op (.f64Const v))
  | i32Arith (o : Arith) : NumberedAs slot index (.op (.i32Arith o)) (.op (.i32Arith o))
  | f32Arith (o : Arith) : NumberedAs slot index (.op (.f32Arith o)) (.op (.f32Arith o))
  | unreachable : NumberedAs slot index (.op .unreachable) (.op .unreachable)
  | nop : NumberedAs slot index (.op .nop) (.op .nop)
  | drop : NumberedAs slot index (.op .drop) (.op .drop)
  | ret : NumberedAs slot index (.op .ret) (.op .ret)
  | br (label : Nat) : NumberedAs slot index (.op (.br label)) (.op (.br label))
  | brIf (label : Nat) : NumberedAs slot index (.op (.brIf label)) (.op (.brIf label))
  | block (type : BlockType) : NumberedAs slot index (.block type) (.block type)
  | loop (type : BlockType) : NumberedAs slot index (.loop type) (.loop type)
  | close : NumberedAs slot index .close .close

/-- An instruction whose names have numbers is relabelled with them. -/
theorem Instr.numberedAs_relabel {slot : Local → Option Nat} {index : FuncRef → Option Nat}
    {s : Local → Nat} {g : FuncRef → Nat} {i : SymbolicInstr}
    (slots : ∀ l ∈ i.local?, slot l = some (s l))
    (indices : ∀ f ∈ i.callee?, index f = some (g f)) :
    NumberedAs slot index i (i.relabel s g) := by
  cases i with
  | op o =>
    cases o with
    | localGet l => exact .localGet (slots l rfl)
    | localSet l => exact .localSet (slots l rfl)
    | call f => exact .call (indices f rfl)
    | _ => constructor
  | _ => constructor

/-- The instruction `close` ends the function at the end of the stream and nowhere else, and every
branch goes to a construct that is open where it stands, or to the function. -/
structure WellNested {L F : Type} (body : List (Instr L F)) : Prop where
  /-- In the end the function is closed. -/
  ends : nesting 1 body = some 0
  /-- Before each item the function is open, and `k` constructs in it. -/
  inside : ∀ before i after, body = before ++ i :: after →
    ∃ k, nesting 1 before = some (k + 1) ∧ ∀ label ∈ i.branch?, label ≤ k

/-- Nesting and branches are those of the handles. -/
theorem WellNested.relabel {L F L' F' : Type} {body : List (Instr L F)} (nested : WellNested body)
    (s : L → L') (g : F → F') : WellNested (body.map (Instr.relabel s g)) := by
  constructor
  · rw [nesting_relabel]
    exact nested.ends
  · intro before i after split
    obtain ⟨before', rest, rfl, rfl, more⟩ := List.map_eq_append_iff.1 split
    obtain ⟨i', after', rfl, rfl, -⟩ := List.map_eq_cons_iff.1 more
    rw [nesting_relabel, Instr.branch?_relabel]
    exact nested.inside before' i' after' rfl

/-! ## Accepted commands -/

namespace Assembler

variable {a : Assembler} {n : Numbering}

/-- The commands that are not refused. -/
def accepted (a : Assembler) : List Command → List Command
  | [] => []
  | c :: commands =>
    match (a.perform c).2 with
    | .ok _ => c :: (a.perform c).1.accepted commands
    | .error _ => (a.perform c).1.accepted commands

/-- Does the command open or close a construct? -/
def Command.bracket? : Command → Option DyckStep
  | .instr (.block _) => some .U
  | .instr (.loop _) => some .U
  | .instr .close => some .D
  | _ => none

theorem bracket?_symbolic (i : Instruction) :
    i.symbolic.bracket? = (Command.instr i).bracket? := by
  cases i <;> rfl

/-- A command that is not refused opens or closes a construct if it asks for that, and a refused one
does not. -/
theorem filterMap_bracket?_perform (a : Assembler) (c : Command) :
    (a.perform c).1.code.filterMap Instr.bracket? =
      a.code.filterMap Instr.bracket? ++
        match (a.perform c).2 with
        | .ok _ => c.bracket?.toList
        | .error _ => [] := by
  rcases a.perform_cases c with
    ⟨i, b, rfl, pushed, done⟩ | ⟨i, e, -, -, done⟩ | ⟨code, tree, known, done⟩
  · obtain ⟨-, -, k, -, rfl⟩ := push_eq_ok.1 pushed
    rw [done, List.filterMap_append, ← bracket?_symbolic, List.filterMap_cons]
    cases i.symbolic.bracket? <;> rfl
  · rw [done]
    simp
  · have straight : code.filterMap Instr.bracket? = [] := by
      refine List.filterMap_eq_nil_iff.2 ?_
      intro i mem
      obtain ⟨o, rfl, -⟩ := (known i mem).straight
      rfl
    have unasked : c.bracket? = none := by
      cases c with
      | instr i => exact absurd rfl (tree i)
      | _ => rfl
    rw [done, List.filterMap_append, straight, unasked]
    cases (a.perform c).2 <;> rfl

/-- The constructs in a body are those that accepted commands opened and closed. -/
theorem filterMap_bracket?_run (a : Assembler) (commands : List Command) :
    (a.run commands).code.filterMap Instr.bracket? =
      a.code.filterMap Instr.bracket? ++ (a.accepted commands).filterMap Command.bracket? := by
  induction commands generalizing a with
  | nil => simp [run, accepted]
  | cons c commands ih =>
    rw [run_cons, ih, filterMap_bracket?_perform, accepted, List.append_assoc]
    cases (a.perform c).2 with
    | ok _ =>
      rw [List.filterMap_cons]
      cases c.bracket? <;> rfl
    | error _ => rfl

/-! ## Finishing -/

/-- A body can be finished exactly when no construct is open and every callee has an index. -/
theorem Assembled.finish_isOk_iff (assembled : a.Assembled) (tidy : a.scope.decl.Tidy) :
    (∃ bs, a.finish n = .ok bs) ↔
      a.depth = 0 ∧ ∀ i ∈ a.code, ∀ f ∈ i.callee?, (n.indexOf? f).isSome = true := by
  constructor
  · rintro ⟨bs, finished⟩
    obtain ⟨closed, c, linked, -⟩ := finish_eq_ok.1 finished
    exact ⟨closed, fun i mem => ((link_eq_ok.1 linked).1 i mem).2⟩
  · rintro ⟨closed, indexed⟩
    refine ⟨_, finish_eq_ok.2 ⟨closed, _, link_eq_ok.2 ⟨?_, rfl⟩, rfl⟩⟩
    exact fun i mem => ⟨fun l named => assembled.slotted tidy mem named, indexed i mem⟩

/-- What the code of a finished body is. -/
structure Finished (a : Assembler) (n : Numbering) (c : Code) : Prop where
  /-- The groups of locals are those of the layout. -/
  groups : (c.locals.map fun g => (g.1, some g.2)) =
    a.layout.groups.map fun g => (g.1, g.2.valType?)
  /-- The instructions are those that were added, with slots and indices, and one that ends the
  function. -/
  body : ∃ items,
    List.Forall₂ (Instr.NumberedAs (fun l => a.layout.slotOf? l.place) n.indexOf?) a.code items ∧
      c.body = items ++ [.close]
  /-- The last item ends the function. -/
  nested : WellNested c.body

theorem map_localGroups (s : SlotLayout) :
    (s.localGroups.map fun g => (g.1, some g.2)) = s.groups.map fun g => (g.1, g.2.valType?) := by
  unfold SlotLayout.localGroups SlotLayout.groups
  cases s.ints <;> cases s.floats <;> simp [ValueType.valType?]

/-- Code that was taken instruction by instruction is nested in the function that one more item
ends. -/
theorem Assembled.wellNested (assembled : a.Assembled) (closed : a.depth = 0) :
    WellNested (a.code ++ [.close]) := by
  have whole := assembled.took.depth
  rw [closed] at whole
  constructor
  · rw [nesting_append, nesting_succ whole]
    rfl
  · intro before i after split
    -- either the item is the one that ends the function, or it stands in the code
    rcases List.eq_nil_or_concat after with rfl | ⟨between, last, rfl⟩
    · obtain ⟨rfl, ⟨⟩⟩ := List.append_inj' split rfl
      exact ⟨0, nesting_succ whole, nofun⟩
    · rw [List.concat_eq_append, ← List.cons_append, ← List.append_assoc] at split
      obtain ⟨code, -⟩ := List.append_inj' split rfl
      obtain ⟨k, reached, labels⟩ := assembled.took.labels before i between code
      exact ⟨k, nesting_succ reached, labels⟩

/-! ## Reading back -/

/-- The numbers of slots do not exceed the numbers of declared locals. -/
theorem length_touchedList_add_le (a : Assembler) :
    (a.touchedList .int32).length + (a.touchedList .float32).length ≤
      a.scope.decl.locals.length := by
  have nodup : (a.touchedList .int32 ++ a.touchedList .float32).Nodup := by
    refine List.nodup_append'.2 ⟨SlotLayout.nodup_touchedOf .., SlotLayout.nodup_touchedOf .., ?_⟩
    intro i int float
    cases (mem_touchedList.1 int).2.symm.trans (mem_touchedList.1 float).2
  have inside : a.touchedList .int32 ++ a.touchedList .float32 ⊆
      List.range a.scope.decl.locals.length := by
    intro i mem
    rw [List.mem_range]
    rcases List.mem_append.1 mem with mem | mem <;>
      exact (List.getElem?_eq_some_iff.1 (mem_touchedList.1 mem).2).1
  have le := (List.subperm_of_subset nodup inside).length_le
  rwa [List.length_append, List.length_range] at le

theorem sum_localGroups (s : SlotLayout) :
    (s.localGroups.map (·.1)).sum = s.ints.length + s.floats.length := by
  have counts := congrArg (List.map Prod.fst) (map_localGroups s)
  rw [List.map_map, List.map_map] at counts
  rw [← s.sum_groups]
  exact congrArg List.sum counts

/-- The numbers in a linked body can be written if there are not too many locals and functions. -/
theorem Assembled.fits_linked (assembled : a.Assembled) (tidy : a.scope.decl.Tidy)
    (indexed : ∀ i ∈ a.code, ∀ f ∈ i.callee?, (n.indexOf? f).isSome = true)
    (locals : a.scope.decl.params.length + a.scope.decl.locals.length < 2 ^ 32)
    (functions : n.size ≤ 2 ^ 32) :
    (⟨a.layout.localGroups, linked a.layout n a.code ++ [.close]⟩ : Code).Fits := by
  have few := a.length_touchedList_add_le
  have sum : (a.layout.localGroups.map (·.1)).sum ≤ a.scope.decl.locals.length :=
    (sum_localGroups a.layout).trans_le few
  have groups := Program.fits_localGroups sum (by omega)
  refine ⟨groups.1, groups.2, ?_⟩
  rw [List.forall_mem_append, linked, List.forall_mem_map]
  refine ⟨?_, by simp [Instr.Fits]⟩
  intro i mem
  have narrow := assembled.narrow i mem
  have slots : ∀ l ∈ i.local?, a.layout.slot l < 2 ^ 32 := by
    intro l named
    obtain ⟨k, slot⟩ := Option.isSome_iff_exists.1 (assembled.slotted tidy mem named)
    have lt := slotOf?_lt slot
    rw [SlotLayout.slot, slot, Option.getD_some]
    omega
  have indices : ∀ f ∈ i.callee?, n.number f < 2 ^ 32 := by
    intro f named
    obtain ⟨k, index⟩ := Option.isSome_iff_exists.1 (indexed i mem f named)
    have lt := Numbering.lt_size_of_indexOf? index
    rw [Numbering.number, index, Option.getD_some]
    omega
  cases i with
  | op o =>
    cases o with
    | br label | brIf label => exact narrow label rfl
    | localGet l | localSet l => exact slots l rfl
    | call f => exact indices f rfl
    | _ => exact trivial
  | block type | loop type => exact narrow
  | close => exact trivial

/-- A linked body has the groups, the instructions and the nesting of the body. -/
theorem Assembled.finished_linked (assembled : a.Assembled) (tidy : a.scope.decl.Tidy)
    (indexed : ∀ i ∈ a.code, ∀ f ∈ i.callee?, (n.indexOf? f).isSome = true)
    (closed : a.depth = 0) :
    a.Finished n ⟨a.layout.localGroups, linked a.layout n a.code ++ [.close]⟩ := by
  refine ⟨map_localGroups a.layout, ⟨_, ?_, rfl⟩, ?_⟩
  · rw [linked, List.forall₂_map_right_iff, List.forall₂_same]
    intro i mem
    refine Instr.numberedAs_relabel ?_ ?_
    · intro l named
      obtain ⟨k, slot⟩ := Option.isSome_iff_exists.1 (assembled.slotted tidy mem named)
      rw [SlotLayout.slot, slot, Option.getD_some]
    · intro f named
      obtain ⟨k, index⟩ := Option.isSome_iff_exists.1 (indexed i mem f named)
      rw [Numbering.number, index, Option.getD_some]
  · have nested := (assembled.wellNested closed).relabel a.layout.slot n.number
    rw [List.map_append] at nested
    exact nested

end Assembler

open Assembler in
/-- A body can be finished exactly when the constructs that accepted commands opened and closed are
balanced and every callee has an index.  Its bytes are then a size, which is the number of the bytes
after it, and those bytes are read to the last one as the finished code.  That the numbers in it can
be read needs no more than that slots and indices are 32-bit numbers. -/
theorem Program.finish_decodes {p : Program} (built : p.Built) {f : FuncRef} {d : Declaration}
    (known : p.get? f = some d) (defined : d.isImport = false) :
    ∃ first, Assembler.start p f = .ok first ∧ ∀ (commands : List Command) (n : Numbering),
      ((∃ bs, (first.run commands).finish n = .ok bs) ↔
        (∃ w : DyckWord, w.toList = (first.accepted commands).filterMap Command.bracket?) ∧
          ∀ i ∈ (first.run commands).code, ∀ g ∈ i.callee?, (n.indexOf? g).isSome = true) ∧
      (d.params.length + d.locals.length < 2 ^ 32 → n.size ≤ 2 ^ 32 →
        ∀ bs, (first.run commands).finish n = .ok bs →
          ∃ content, bs = Bytes.sized content ∧
            (content.length < 2 ^ 32 → Reader.u32 bs = some (content.length, content) ∧
              ∃ c, Code.decode content = some c ∧ (first.run commands).Finished n c)) := by
  have started := Program.start_of_defined known defined
  refine ⟨_, started, ?_⟩
  intro commands n
  have brackets := filterMap_bracket?_run ⟨⟨p, f, d⟩, [], 0⟩ commands
  have assembled := assembled_run started commands
  have tidy := tidy_run built started commands
  have scope := scope_run ⟨⟨p, f, d⟩, [], 0⟩ commands
  generalize Assembler.run _ commands = a at brackets assembled tidy scope
  constructor
  · rw [assembled.finish_isOk_iff tidy, ← exists_dyckWord_iff assembled.took.depth, brackets]
    rfl
  · intro locals functions bs finished
    have indexed := ((assembled.finish_isOk_iff tidy).1 ⟨bs, finished⟩).2
    obtain ⟨closed, c, linked, rfl⟩ := finish_eq_ok.1 finished
    obtain ⟨-, rfl⟩ := link_eq_ok.1 linked
    refine ⟨_, rfl, ?_⟩
    intro size
    refine ⟨(Reader.readsWhen_u32 _ _).1 size, _, Code.decode_encode.2 ⟨?_, rfl⟩,
      assembled.finished_linked tidy indexed closed⟩
    refine assembled.fits_linked tidy indexed ?_ functions
    rw [scope]
    exact locals

/-- A block with a branch out of the function in it, then a call.  A branch that goes too far out
and a second `close` are refused. -/
theorem Program.finish_decodes_sample :
    ∃ first, Assembler.start sample ⟨7, 0⟩ = .ok first ∧
      (let own (place : Place) : Local := ⟨⟨7, 0⟩, place⟩
       let a := first.run [.instr (.block .void), .instr (.get (own (.var 1))), .instr (.br 2),
         .instr (.brIf 1), .instr .close, .instr .close,
         .expr (.call ⟨7, 2⟩ [.var (own (.param 0))])]
       let content : Bytes := [1, 1, 0x7F, 2, 0x40, 0x20, 2, 0x0D, 1, 0x0B, 0x20, 0, 0x10, 2, 0x0B]
       a.finish Numbering.sample = .ok (15 :: content) ∧
         ∃ c, Code.decode content = some c ∧ a.Finished Numbering.sample c) := by
  have known : sample.get? ⟨7, 0⟩ = some (sample.decls[0]) := by rfl
  obtain ⟨first, started, formatted⟩ := finish_decodes built_sample known rfl
  refine ⟨first, started, ?_⟩
  intro own a content
  have finished : a.finish Numbering.sample = .ok (15 :: content) := by
    obtain ⟨d, declared, -, rfl⟩ := Assembler.start_eq_ok.1 started
    cases declared.symm.trans known
    cbv
  obtain ⟨after, written, read⟩ :=
    (formatted _ Numbering.sample).2 (by decide) (by decide) _ finished
  have size : after.length < 2 ^ 32 := by
    have whole := congrArg List.length written
    rw [Bytes.sized, List.length_append] at whole
    have small : (15 :: content).length = 16 := rfl
    omega
  obtain ⟨prefixed, c, decoded, code⟩ := read size
  have fifteen : Reader.u32 (15 :: content) = some (15, content) := by decide
  have same : after = content :=
    congrArg Prod.snd (Option.some.inj (prefixed.symm.trans fifteen))
  rw [same] at decoded
  exact ⟨finished, c, decoded, code⟩

end WasmForge

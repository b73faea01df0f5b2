import Mathlib
import WasmForge.Machine.Exec

/-!
# Runs side by side

Two runs that go together step for step: they end in the same state of the host, with values that
are related or with the same trap.  The first one may have to do with less room than it needs; then
it may also end for want of cells.

* `Follows`: one run follows another.
* `Follows.bind`: runs that follow each other can be put one after the other.
* `Follows.eq_map`: with room enough, a run that follows another is that run with other values.
* `Node.ofBody?_straight`, `Machine.runAll_append`: code without constructs, and its execution.
-/

namespace WasmForge

variable {σ α β γ δ : Type} {short : Prop}

/-- The traps that a program which makes sense can run into: too many calls inside each other, and
an answer of the host where none is due, or none where one is. -/
inductive Trap.Expected : Trap → Prop where
  /-- Too many calls. -/
  | callDepth : Expected .callDepth
  /-- An answer too many. -/
  | unexpectedAnswer (function : String) : Expected (.unexpectedAnswer function)
  /-- An answer too few. -/
  | missingAnswer (function : String) : Expected (.missingAnswer function)

/-- How the end of a run goes with the end of another.  Only a run that may be `short` of room can
stop for want of cells. -/
inductive EndsLike (short : Prop) (R : α → β → Prop) :
    Except Trap α × σ → Except Trap β × σ → Prop where
  /-- Both have a value. -/
  | value {a : α} {b : β} {st : σ} (related : R a b) : EndsLike short R (.ok a, st) (.ok b, st)
  /-- Both trap. -/
  | trap {t : Trap} {st : σ} (expected : t.Expected) :
      EndsLike short R (.error t, st) (.error t, st)
  /-- The first one has too little room. -/
  | exhausted {st : σ} {other : Except Trap β × σ} (allowed : short) :
      EndsLike short R (.error .cellsExhausted, st) other

theorem Run.run_bind (m : Run σ α) (f : α → Run σ β) (st : σ) :
    (m >>= f).run.run st =
      match m.run.run st with
      | (.ok a, st') => (f a).run.run st'
      | (.error t, st') => (.error t, st') := by
  show (match m.run.run st with
    | (r, st') => (ExceptT.bindCont f r).run st') = _
  rcases m.run.run st with ⟨_ | _, _⟩ <;> rfl

/-- From every state of the host, the first run ends like the second. -/
def Follows (short : Prop) (R : α → β → Prop) (m : Run σ α) (e : Run σ β) : Prop :=
  ∀ st : σ, EndsLike short R (m.run.run st) (e.run.run st)

namespace Follows

variable {R : α → β → Prop} {S : γ → δ → Prop} {m : Run σ α} {e : Run σ β}

theorem pure {a : α} {b : β} (related : R a b) :
    Follows short R (Pure.pure a : Run σ α) (Pure.pure b : Run σ β) :=
  fun _ => .value related

theorem throw {t : Trap} (expected : t.Expected) :
    Follows short R (MonadExcept.throw t : Run σ α) (MonadExcept.throw t : Run σ β) :=
  fun _ => .trap expected

theorem exhausted (allowed : short) :
    Follows short R (MonadExcept.throw .cellsExhausted : Run σ α) e :=
  fun _ => .exhausted allowed

theorem bind {f : α → Run σ γ} {g : β → Run σ δ} (first : Follows short R m e)
    (rest : ∀ a b, R a b → Follows short S (f a) (g b)) :
    Follows short S (m >>= f) (e >>= g) := by
  intro st
  rw [Run.run_bind, Run.run_bind]
  have ends := first st
  generalize m.run.run st = x, e.run.run st = y at ends ⊢
  cases ends with
  | value related => exact rest _ _ related _
  | trap expected => exact .trap expected
  | exhausted allowed => exact .exhausted allowed

theorem mono {R' : α → β → Prop} (runs : Follows short R m e) (weaker : ∀ a b, R a b → R' a b) :
    Follows short R' m e := by
  intro st
  have ends := runs st
  generalize m.run.run st = x, e.run.run st = y at ends ⊢
  cases ends with
  | value related => exact .value (weaker _ _ related)
  | trap expected => exact .trap expected
  | exhausted allowed => exact .exhausted allowed

/-- With room enough, a run whose values are given by those of the other is that run, mapped. -/
theorem eq_map {g : β → α} (runs : Follows False R m e) (values : ∀ a b, R a b → a = g b) :
    m = g <$> e := by
  refine ExceptT.ext (StateT.ext fun st => ?_)
  rw [map_eq_pure_bind, Run.run_bind]
  have ends := runs st
  generalize m.run.run st = x, e.run.run st = y at ends ⊢
  cases ends with
  | value related =>
    rw [values _ _ related]
    rfl
  | trap expected => rfl
  | exhausted none => exact none.elim

/-- What goes wrong in the second run is expected, if the first one has room enough. -/
theorem expected {st st' : σ} {t : Trap} (runs : Follows False R m e)
    (trapped : e.run.run st = (.error t, st')) : t.Expected := by
  have ends := runs st
  rw [trapped] at ends
  generalize m.run.run st = x at ends
  cases ends with
  | trap expected => exact expected
  | exhausted none => exact none.elim

end Follows

/-! ## Code without constructs -/

/-- The structured form of code without constructs. -/
def Node.ofStraight (code : List (Instr Nat Nat)) : List Node :=
  code.filterMap fun
    | .op o => some (.op o)
    | _ => none

/-- A body without constructs has a structured form. -/
theorem Node.ofBody?_straight (types : List FuncType) {code : List (Instr Nat Nat)}
    (straight : ∀ i ∈ code, ∃ o, i = .op o) :
    ofBody? types (code ++ [.close]) = some (ofStraight code) := by
  have row : ∀ nodes, code.foldlM (Builder.step types) (.inside nodes []) =
      some (.inside ((ofStraight code).reverse ++ nodes) []) := by
    induction code with
    | nil =>
      intro nodes
      rfl
    | cons i code ih =>
      intro nodes
      rw [List.forall_mem_cons] at straight
      obtain ⟨⟨o, rfl⟩, rest⟩ := straight
      have head : ofStraight (.op o :: code) = .op o :: ofStraight code := rfl
      rw [List.foldlM_cons, Builder.step, Option.bind_eq_bind, Option.bind_some, ih rest, head]
      simp
  have closed : (code ++ [Instr.close]).foldlM (Builder.step types) (.inside [] []) =
      some (.closed (ofStraight code)) := by
    rw [List.foldlM_append, row]
    simp [Builder.step]
  rw [ofBody?, closed]

/-- What follows a stretch of code runs if the stretch is left at its end. -/
theorem Machine.runAll_append [SingleArith] (callee : Nat → Option (Callee σ))
    (first rest : List Node) (a : Activation) :
    runAll callee (first ++ rest) a = do
      match ← runAll callee first a with
      | .next a => runAll callee rest a
      | exit => return exit := by
  induction first generalizing a with
  | nil => rw [List.nil_append, runAll, pure_bind]
  | cons node first ih =>
    rw [List.cons_append, runAll, runAll, bind_assoc]
    refine congrArg _ (funext fun exit => ?_)
    cases exit with
    | next a => exact ih a
    | branch label a => rw [pure_bind]
    | ret a => rw [pure_bind]

end WasmForge

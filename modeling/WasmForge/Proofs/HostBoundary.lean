import Mathlib
import WasmForge.Proofs.Execution
import WasmForge.Proofs.Recording
import WasmForge.Proofs.TypeSafety

/-!
# Types across the boundary of the host

The functions of a host are free to answer what they like, and nothing holds them to the types that
they are imported at.  Still, an instance of a compiled program asks them only with arguments of
their parameter types, gives results of the declared types, and traps as soon as an answer is there
that is not due, or none is there that is due.

* `Program.Allows`: what may pass between an instance and its host during a call.
* `Program.watch`, `Instance.Represents.allSound`: the functions of an instance keep to it.
* `Program.Ends`, `Instance.Represents.ends_exchange`: the ways in which a call can go.
* `Program.exchanges_allowed`: every call does, after any calls before it.
-/

namespace WasmForge

variable {σ : Type}

/-! ## Scalars and declared types -/

/-- The type that a scalar has in programs. -/
def Scalar.valueType : Scalar → ValueType
  | .int _ => .int32
  | .float _ => .float32

theorem ValueType.valType?_injective : Function.Injective ValueType.valType? := by
  intro t u same
  cases t <;> cases u <;> first | rfl | cases same

theorem Value.type_ofScalar (s : Scalar) : some (ofScalar s).type = s.valueType.valType? := by
  cases s <;> rfl

/-- What a call with results of the result type answers. -/
theorem Value.answer_of_types {t : ValueType} {results : List Value}
    (typed : types results = t.valType?.toList) :
    (results.head?.bind scalar? = none ↔ t = .void) ∧
      ∀ s, results.head?.bind scalar? = some s → s.valueType = t := by
  cases t with
  | void =>
    have none : results = [] := List.map_eq_nil_iff.1 typed
    simp [none]
  | int32 =>
    obtain ⟨v, rest, rfl, type, -⟩ := types_eq_cons typed
    obtain ⟨x, rfl⟩ := eq_i32 type
    simp [scalar?, Scalar.valueType]
  | float32 =>
    obtain ⟨v, rest, rfl, type, -⟩ := types_eq_cons typed
    obtain ⟨x, rfl⟩ := eq_f32 type
    simp [scalar?, Scalar.valueType]

namespace Declaration

variable {d : Declaration}

/-- Arguments fit a function exactly when they are as many as its parameters and have their
types. -/
theorem Tidy.takes_iff (tidy : d.Tidy) {args : List Scalar} :
    d.Takes args ↔ args.map Scalar.valueType = d.params.map (·.type) := by
  have given : ((args.map Value.ofScalar).map Value.type).map some =
      (args.map Scalar.valueType).map ValueType.valType? := by
    simp only [List.map_map]
    exact List.map_congr_left fun s _ => Value.type_ofScalar s
  have declared : d.funcType.params.map some = (d.params.map (·.type)).map ValueType.valType? := by
    rw [tidy.map_some_params, List.map_map]
    rfl
  rw [Takes, ← (List.map_injective_iff.2 (Option.some_injective _)).eq_iff, given, declared,
    (List.map_injective_iff.2 ValueType.valType?_injective).eq_iff]

/-- Values of parameter types are scalars. -/
theorem Tidy.exists_scalars (tidy : d.Tidy) {vs : List Value}
    (typed : Value.types vs = d.funcType.params) :
    ∃ args : List Scalar, vs = args.map .ofScalar := by
  have each : ∀ v ∈ vs, v ∈ Set.range Value.ofScalar := by
    intro v mem
    have type : v.type ∈ d.funcType.params := typed ▸ List.mem_map_of_mem mem
    rw [tidy.params_funcType, List.mem_map] at type
    obtain ⟨x, here, type⟩ := type
    have storable := tidy.params x here
    cases declared : x.type with
    | void => simp [declared, ValueType.isStorable] at storable
    | int32 =>
      obtain ⟨y, rfl⟩ := Value.eq_i32 (type.symm.trans (congrArg ValueType.held declared))
      exact ⟨.int y, rfl⟩
    | float32 =>
      obtain ⟨y, rfl⟩ := Value.eq_f32 (type.symm.trans (congrArg ValueType.held declared))
      exact ⟨.float y, rfl⟩
  have all : vs ∈ Set.range (List.map Value.ofScalar) := by
    rw [Set.range_list_map]
    exact each
  obtain ⟨args, rfl⟩ := all
  exact ⟨args, rfl⟩

/-! ## Answers -/

/-- An answer is due exactly if the function has a result. -/
def Expects (d : Declaration) (answer : Option Scalar) : Prop :=
  answer.isSome = true ↔ d.result ≠ .void

/-- The trap that an answer which is not as expected leads to. -/
def answerTrap (d : Declaration) : Trap :=
  if d.result = .void then .unexpectedAnswer d.name else .missingAnswer d.name

theorem hostResults_of_expects {answer : Option Scalar} (expects : d.Expects answer) :
    ∃ results, hostResults d.name d.funcType.results answer = .ok results ∧
      Value.types results = d.funcType.results := by
  unfold Expects at expects
  unfold funcType
  cases result : d.result <;> cases answer <;>
    simp_all [hostResults, ValueType.valType?, Value.types]

theorem hostResults_of_not_expects {answer : Option Scalar} (wrong : ¬d.Expects answer) :
    hostResults d.name d.funcType.results answer = .error d.answerTrap := by
  unfold Expects at wrong
  unfold funcType answerTrap
  cases result : d.result <;> cases answer <;> simp_all [hostResults, ValueType.valType?]

end Declaration

/-! ## What is allowed -/

namespace Program

/-- The function that is invoked is an import, and the arguments have the types of its
parameters. -/
structure Asks (p : Program) (d : Declaration) (v : Invocation) : Prop where
  /-- It is declared. -/
  declared : ∃ f, p.get? f = some d
  /-- It is an import. -/
  imported : d.isImport = true
  /-- It has the name. -/
  name : d.name = v.name
  /-- The arguments. -/
  args : v.args.map Scalar.valueType = d.params.map (·.type)

/-- What may pass between an instance of the program and its host during a call of an export. -/
structure Allows (p : Program) (e : Exchange) : Prop where
  /-- Nothing is missing but what the program does not export. -/
  missing : e.outcome = .error (.missingExport e.name) ↔
    ¬∃ f d, p.get? f = some d ∧ d.isExport = true ∧ d.name = e.name
  /-- Arguments that do not fit the export are refused before the host is asked anything. -/
  refused : ∀ f d, p.get? f = some d → d.isExport = true → d.name = e.name →
    e.args.map Scalar.valueType ≠ d.params.map (·.type) →
    e.invocations = [] ∧ e.outcome = .error (.trapped e.name .badArguments)
  /-- The host is asked with arguments that fit the import. -/
  asked : ∀ v ∈ e.invocations, ∃ d, p.Asks d v
  /-- An answer that is not as expected ends the call. -/
  answered : ∀ v ∈ e.invocations, ∀ f d, p.get? f = some d → d.isImport = true → d.name = v.name →
    ¬d.Expects v.answer →
    e.invocations.getLast? = some v ∧ e.outcome = .error (.trapped e.name d.answerTrap)
  /-- Beyond that, a call traps only for want of room, or where the code says so. -/
  trapped : ∀ t, e.outcome = .error (.trapped e.name t) →
    t = .badArguments ∨ t.OfTypedCode ∨ ∃ v ∈ e.invocations, ∃ d, p.Asks d v ∧ ¬d.Expects v.answer
  /-- The answer is of the declared type. -/
  result : ∀ f d x, p.get? f = some d → d.isExport = true → d.name = e.name → e.outcome = .ok x →
    (x = none ↔ d.result = .void) ∧ ∀ s, x = some s → s.valueType = d.result

/-- All invocations are of imports, and are answered as expected. -/
def Orderly (p : Program) (log : List Invocation) : Prop :=
  ∀ v ∈ log, ∃ d, p.Asks d v ∧ d.Expects v.answer

/-- The last invocation, and no other, is answered in another way than expected, and the trap says
so. -/
def EndsWrongly (p : Program) (t : Trap) (log : List Invocation) : Prop :=
  ∃ before v d, log = before ++ [v] ∧ p.Orderly before ∧ p.Asks d v ∧ ¬d.Expects v.answer ∧
    t = d.answerTrap

/-- Watches the record of invocations. -/
def watch (p : Program) : Watch (σ × List Invocation) where
  calm st := p.Orderly st.2
  ended t st := t.OfTypedCode ∧ p.Orderly st.2 ∨ p.EndsWrongly t st.2
  stops _ _ typed calm := .inl ⟨typed, calm⟩

end Program

/-! ## Functions of the host -/

theorem run_callHost_recorded (name : String) (type : FuncType) (f : HostFunction σ)
    {vs : List Value} {args : List Scalar} (scalars : vs.mapM Value.scalar? = some args) (st : σ)
    (log : List Invocation) :
    (callHost name type (f.recorded name) vs).run.run (st, log) =
      (hostResults name type.results ((f args).run st).1,
        ((f args).run st).2, log ++ [⟨name, args, ((f args).run st).1⟩]) := by
  rw [callHost, scalars]
  dsimp only
  rw [Run.run_bind]
  have asked : (liftM (f.recorded name args) : Run (σ × List Invocation) _).run.run (st, log) =
      (.ok ((f args).run st).1, ((f args).run st).2,
        log ++ [⟨name, args, ((f args).run st).1⟩]) := rfl
  rw [asked]
  dsimp only
  cases hostResults name type.results ((f args).run st).1 <;> rfl

/-- Whatever a function of the host does, it is asked as its import says, and its answer is taken
only if it is as expected. -/
theorem Program.ensures_callHost {p : Program} {f : FuncRef} {d : Declaration} (tidy : d.Tidy)
    (known : p.get? f = some d) (imported : d.isImport = true) (run : HostFunction σ)
    {args : List Value} (typed : Value.types args = d.funcType.params) :
    p.watch.Ensures (fun results => Value.types results = d.funcType.results)
      (callHost d.name d.funcType (run.recorded d.name) args) := by
  obtain ⟨scalars, rfl⟩ := tidy.exists_scalars typed
  rintro ⟨st, log⟩ orderly
  have asks : p.Asks d ⟨d.name, scalars, ((run scalars).run st).1⟩ :=
    ⟨⟨f, known⟩, imported, rfl, tidy.takes_iff.1 typed⟩
  rw [run_callHost_recorded _ _ _ (Value.mapM_scalar?_ofScalar scalars)]
  by_cases expects : d.Expects ((run scalars).run st).1
  · obtain ⟨results, given, types⟩ := Declaration.hostResults_of_expects expects
    rw [given]
    refine ⟨?_, types⟩
    intro v mem
    rcases List.mem_append.1 mem with mem | mem
    · exact orderly v mem
    · exact List.mem_singleton.1 mem ▸ ⟨d, asks, expects⟩
  · rw [Declaration.hostResults_of_not_expects expects]
    exact .inr ⟨log, _, d, rfl, orderly, asks, expects, rfl⟩

/-! ## Functions of an instance -/

open ModuleDraft Program

section Instances

variable {i : Instance σ} {p : Program} {n : Numbering} {o : EmitOptions} {host : Host σ}
  {imports defined : List Declaration} (tidy : p.Tidy) (complete : n.Complete)
  (accepts : Accepts p n o imports defined)

include tidy complete accepts

/-- The code of a function of the program type-checks in the functions of the program. -/
theorem Scope.checked_ready {f : FuncRef} {d : Declaration} {body : Stmt}
    (known : p.get? f = some d) (typed : WellTyped p f body)
    (returns : d.result ≠ .void → body.Returns) (cells : Nat) :
    ((⟨p, f, d⟩ : Scope).ready n body cells).Checked ((imports ++ defined).map (·.funcType)) := by
  have indexed : ∀ g e, p.get? g = some e →
      ((imports ++ defined).map (·.funcType))[n.number g]? = some e.funcType := by
    intro g e callee
    rw [List.getElem?_map, getElem?_number (accepts.numberedBy complete) accepts.refs callee]
    rfl
  have straight : ∀ j ∈ Assembler.linked ((⟨p, f, d⟩ : Scope).assembled body).layout n
      ((⟨p, f, d⟩ : Scope).stmt body).code, ∃ o, j = .op o ∧ o.branch? = none := by
    intro j mem
    obtain ⟨j, here, rfl⟩ := List.mem_map.1 mem
    obtain ⟨o, rfl, noBranch⟩ := (Scope.within_stmt body j here).straight
    exact ⟨_, rfl, (Op.branch?_relabel ..).trans noBranch⟩
  have needed : d.funcType.results ≠ [] → body.Returns := by
    intro some
    refine returns ?_
    intro void
    exact some (by rw [Declaration.funcType, void]; rfl)
  obtain ⟨fr, linked, after⟩ := Scope.steps_linked (s := ⟨p, f, d⟩) (n := n) [] known
    (tidy.decls f d known) indexed typed
  refine ⟨(⟨p, f, d⟩ : Scope).linkedContext n body [] _, _, fr, body.Returns, ?_, fun _ => rfl, rfl,
    rfl, straight, linked, after, needed⟩
  intro k
  simp [Scope.linkedContext, Scope.ready, Code.localTypes]

/-- The functions of an instance keep to their types, whatever the host does. -/
theorem Instance.Represents.allSound (represents : i.Represents p n host) :
    LinkedFunction.AllSound p.watch ((imports ++ defined).map (·.funcType))
      i.recorded.functions := by
  intro k type typeOf
  rw [List.getElem?_map, Option.map_eq_some_iff] at typeOf
  obtain ⟨d, at_k, rfl⟩ := typeOf
  have handle := congrArg (·[k]?) accepts.refs
  simp only [List.getElem?_map, at_k, Option.map_some] at handle
  obtain ⟨f, at_f, known⟩ := Option.map_eq_some_iff.1 handle
  obtain rfl : n.number f = k := by
    rw [Numbering.number, complete.indexOf?_eq_some.2 at_f]
    rfl
  simp only [Instance.recorded, List.getElem?_map]
  by_cases imported : d.isImport = true
  · obtain ⟨run, -, found⟩ := represents.serves.imports f d known imported
    exact ⟨_, congrArg (Option.map _) found, rfl, fun args typed =>
      ensures_callHost (tidy.decls f d known) known imported run typed⟩
  · obtain ⟨body, cells, -, typed, returns, found⟩ :=
      represents.serves.bodies f d known (by simpa using imported)
    exact ⟨_, congrArg (Option.map _) found, rfl,
      Scope.checked_ready tidy complete accepts known typed returns cells⟩

end Instances

/-! ## Calls of exports -/

namespace Program

variable {p : Program} (tidy : p.Tidy)

include tidy

theorem Tidy.import_eq {f g : FuncRef} {d e : Declaration} (known : p.get? f = some d)
    (imported : d.isImport = true) (other : p.get? g = some e) (isImport : e.isImport = true)
    (name : e.name = d.name) : e = d := by
  obtain rfl := tidy.imports g f e d other known isImport imported name
  exact Option.some.inj (other.symm.trans known)

theorem Tidy.export_eq {f g : FuncRef} {d e : Declaration} (known : p.get? f = some d)
    (exported : d.isExport = true) (other : p.get? g = some e) (isExport : e.isExport = true)
    (name : e.name = d.name) : e = d := by
  obtain rfl := tidy.exports g f e d other known isExport exported name
  exact Option.some.inj (other.symm.trans known)

/-- In a record in order, every answer is as expected. -/
theorem Orderly.expects {log : List Invocation} (orderly : p.Orderly log) {v : Invocation}
    (mem : v ∈ log) {f : FuncRef} {d : Declaration} (known : p.get? f = some d)
    (imported : d.isImport = true) (name : d.name = v.name) : d.Expects v.answer := by
  obtain ⟨e, asks, expects⟩ := orderly v mem
  obtain ⟨g, other⟩ := asks.declared
  rwa [← tidy.import_eq known imported other asks.imported (asks.name.trans name.symm)]

omit tidy in
/-- A call of what is not exported. -/
theorem allows_missing {name : String} (args : List Scalar)
    (none : ¬∃ f d, p.get? f = some d ∧ d.isExport = true ∧ d.name = name) :
    p.Allows ⟨name, args, [], .error (.missingExport name)⟩ where
  missing := ⟨fun _ => none, fun _ => rfl⟩
  refused f d known exported same := absurd ⟨f, d, known, exported, same⟩ none
  asked _ mem := nomatch mem
  answered _ mem := nomatch mem
  trapped _ trap := nomatch trap
  result _ _ _ _ _ _ ok := nomatch ok

variable {f : FuncRef} {d : Declaration} (known : p.get? f = some d) (exported : d.isExport = true)
  {args : List Scalar}

include known exported

omit tidy in
/-- A call with arguments that do not fit. -/
theorem allows_refused : p.Allows ⟨d.name, args, [], .error (.trapped d.name .badArguments)⟩ where
  missing := ⟨nofun, fun none => absurd ⟨f, d, known, exported, rfl⟩ none⟩
  refused _ _ _ _ _ _ := ⟨rfl, rfl⟩
  asked _ mem := nomatch mem
  answered _ mem := nomatch mem
  trapped := by
    rintro _ ⟨⟩
    exact .inl rfl
  result _ _ _ _ _ _ ok := nomatch ok

variable (fits : args.map Scalar.valueType = d.params.map (·.type)) {log : List Invocation}

include fits

/-- A call that traps. -/
theorem allows_trapped {t : Trap} (ended : t.OfTypedCode ∧ p.Orderly log ∨ p.EndsWrongly t log) :
    p.Allows ⟨d.name, args, log, .error (.trapped d.name t)⟩ where
  missing := ⟨nofun, fun none => absurd ⟨f, d, known, exported, rfl⟩ none⟩
  refused _ _ other isExport name wrong :=
    absurd (tidy.export_eq known exported other isExport name ▸ fits) wrong
  asked v mem := by
    rcases ended with ⟨-, orderly⟩ | ⟨before, last, e, rfl, orderly, asks, -⟩
    · obtain ⟨e, asks, -⟩ := orderly v mem
      exact ⟨e, asks⟩
    · rcases List.mem_append.1 mem with mem | mem
      · obtain ⟨e, asks, -⟩ := orderly v mem
        exact ⟨e, asks⟩
      · exact ⟨e, List.mem_singleton.1 mem ▸ asks⟩
  answered v mem g e known' imported name wrong := by
    rcases ended with ⟨-, orderly⟩ | ⟨before, last, e', rfl, orderly, asks, -, rfl⟩
    · exact absurd (orderly.expects tidy mem known' imported name) wrong
    · rcases List.mem_append.1 mem with mem | mem
      · exact absurd (orderly.expects tidy mem known' imported name) wrong
      · obtain rfl := List.mem_singleton.1 mem
        obtain ⟨g', other⟩ := asks.declared
        obtain rfl := tidy.import_eq known' imported other asks.imported
          (asks.name.trans name.symm)
        exact ⟨List.getLast?_concat, rfl⟩
  trapped := by
    rintro _ ⟨⟩
    rcases ended with ⟨typed, -⟩ | ⟨before, last, e, rfl, -, asks, wrong, -⟩
    · exact .inr (.inl typed)
    · exact .inr (.inr ⟨last, List.mem_concat_self, e, asks, wrong⟩)
  result _ _ _ _ _ _ ok := nomatch ok

/-- A call that answers. -/
theorem allows_answered {results : List Value} (orderly : p.Orderly log)
    (typed : Value.types results = d.funcType.results) :
    p.Allows ⟨d.name, args, log, .ok (results.head?.bind Value.scalar?)⟩ where
  missing := ⟨nofun, fun none => absurd ⟨f, d, known, exported, rfl⟩ none⟩
  refused _ _ other isExport name wrong :=
    absurd (tidy.export_eq known exported other isExport name ▸ fits) wrong
  asked v mem := by
    obtain ⟨e, asks, -⟩ := orderly v mem
    exact ⟨e, asks⟩
  answered v mem g e known' imported name wrong :=
    absurd (orderly.expects tidy mem known' imported name) wrong
  trapped _ trap := nomatch trap
  result g e x other isExport name ok := by
    obtain rfl := tidy.export_eq known exported other isExport name
    cases ok
    exact Value.answer_of_types typed

end Program

/-- The ways in which a call of an export can go. -/
inductive Program.Ends (p : Program) : Exchange → Prop where
  /-- There is no such export. -/
  | missing {name : String} {args : List Scalar}
      (none : ¬∃ f d, p.get? f = some d ∧ d.isExport = true ∧ d.name = name) :
      Ends p ⟨name, args, [], .error (.missingExport name)⟩
  /-- The arguments do not fit. -/
  | refused {f : FuncRef} {d : Declaration} {args : List Scalar} (known : p.get? f = some d)
      (exported : d.isExport = true) :
      Ends p ⟨d.name, args, [], .error (.trapped d.name .badArguments)⟩
  /-- The call traps. -/
  | trapped {f : FuncRef} {d : Declaration} {args : List Scalar} {log : List Invocation} {t : Trap}
      (known : p.get? f = some d) (exported : d.isExport = true)
      (fits : args.map Scalar.valueType = d.params.map (·.type))
      (ended : t.OfTypedCode ∧ p.Orderly log ∨ p.EndsWrongly t log) :
      Ends p ⟨d.name, args, log, .error (.trapped d.name t)⟩
  /-- The call answers. -/
  | answered {f : FuncRef} {d : Declaration} {args : List Scalar} {log : List Invocation}
      {results : List Value} (known : p.get? f = some d) (exported : d.isExport = true)
      (fits : args.map Scalar.valueType = d.params.map (·.type)) (orderly : p.Orderly log)
      (typed : Value.types results = d.funcType.results) :
      Ends p ⟨d.name, args, log, .ok (results.head?.bind Value.scalar?)⟩

theorem Program.Ends.allows {p : Program} {e : Exchange} (ends : p.Ends e) (tidy : p.Tidy) :
    p.Allows e := by
  cases ends with
  | missing none => exact allows_missing _ none
  | refused known exported => exact allows_refused known exported
  | trapped known exported fits ended => exact allows_trapped tidy known exported fits ended
  | answered known exported fits orderly typed =>
    exact allows_answered tidy known exported fits orderly typed

/-- Every call of an instance goes in one of these ways. -/
theorem Instance.Represents.ends_exchange [SingleArith] {i : Instance σ} {p : Program}
    {n : Numbering} {o : EmitOptions} {host : Host σ} {imports defined : List Declaration}
    (tidy : p.Tidy) (complete : n.Complete) (accepts : Accepts p n o imports defined)
    (represents : i.Represents p n host)
    (only : ∀ name k, i.exports.lookup name = some k →
      ∃ f d, p.get? f = some d ∧ d.isExport = true ∧ d.name = name)
    (name : String) (args : List Scalar) (st : σ) : p.Ends ((i.exchange name args).run st).1 := by
  rw [run_exchange]
  by_cases found : ∃ f d, p.get? f = some d ∧ d.isExport = true ∧ d.name = name
  · obtain ⟨f, d, known, exported, rfl⟩ := found
    have sound := represents.allSound tidy complete accepts
    have at_f : ((imports ++ defined).map (·.funcType))[n.number f]? = some d.funcType := by
      rw [List.getElem?_map, getElem?_number (accepts.numberedBy complete) accepts.refs known]
      rfl
    obtain ⟨g, here, type, keeps⟩ := sound _ _ at_f
    rw [run_call (i := i.recorded) (represents.exports f d known exported), invoke, here]
    dsimp only
    by_cases typed : (args.map Value.ofScalar).map (·.type) = g.type.params
    · rw [if_pos typed]
      have fits := (tidy.decls f d known).takes_iff.1 (typed.trans (congrArg FuncType.params type))
      have ends := ensures_callFunction sound maxCallDepth (maxCells - g.type.results.length) keeps
        typed (st, []) (List.forall_mem_nil _)
      generalize (callFunction i.recorded.functions _ _ g _).run.run (st, []) = x at ends ⊢
      rcases x with ⟨t | results, after, log⟩
      · exact .trapped known exported fits ends
      · exact .answered known exported fits ends.1 (ends.2.trans (type ▸ rfl))
    · rw [if_neg typed]
      exact .refused known exported
  · have none : i.recorded.exports.lookup name = none := by
      refine Option.eq_none_iff_forall_ne_some.2 ?_
      intro k at_k
      exact found (only name k at_k)
    rw [call, none]
    exact .missing found

/-- Every call of an instance does only what the program allows. -/
theorem Instance.Represents.allows_exchange [SingleArith] {i : Instance σ} {p : Program}
    {n : Numbering} {o : EmitOptions} {host : Host σ} {imports defined : List Declaration}
    (tidy : p.Tidy) (complete : n.Complete) (accepts : Accepts p n o imports defined)
    (represents : i.Represents p n host)
    (only : ∀ name k, i.exports.lookup name = some k →
      ∃ f d, p.get? f = some d ∧ d.isExport = true ∧ d.name = name)
    (name : String) (args : List Scalar) (st : σ) : p.Allows ((i.exchange name args).run st).1 :=
  (represents.ends_exchange tidy complete accepts only name args st).allows tidy

/-- On every host with a function for each import of a program, whatever these functions do and
answer, calls of the exports of the compiled program go as their declarations say: each exchange is
one that the program allows, after any calls before it, and leaving the record out changes
nothing. -/
theorem Program.exchanges_allowed [SingleArith] {p : Program} {o : EmitOptions} {bs : Bytes}
    (built : p.Built) (compiled : p.compile o = .ok bs) {host : Host σ}
    (offers : ∀ f d, p.get? f = some d → d.isImport = true → (host.find? d.name).isSome = true)
    {start after : σ} {i : Instance σ}
    (made : (Instance.ofBytes bs host).run start = (.ok i, after))
    (calls : List (String × List Scalar)) :
    (calls.mapM fun (name, args) => i.call name args) =
        List.map Exchange.outcome <$> i.exchanges calls ∧
      ∀ st, ((i.exchanges calls).run st).1.map (fun e => (e.name, e.args)) = calls ∧
        ∀ e ∈ ((i.exchanges calls).run st).1, p.Allows e := by
  have tidy := built.tidy
  have complete := complete_usual p
  obtain ⟨imports, defined, accepts, read, fits, bodies⟩ := emitted_of_compile tidy compiled
  obtain ⟨linked, -⟩ := (Instance.run_ofBytes_eq_ok read rfl).1 made
  have represents := represents_of_link tidy complete accepts fits bodies offers linked
  refine ⟨(i.outcome_exchanges calls).symm, fun st => ⟨i.map_exchanges calls st, ?_⟩⟩
  refine Instance.forall_mem_exchanges ?_ calls st
  exact represents.allows_exchange tidy complete accepts fun _ _ => exported_of_link accepts linked

/-- What a closed computation says of a compiled program, of its instance on a host, and of what is
asked of the instance. -/
theorem Program.exists_instance [SingleArith] {p : Program} {o : EmitOptions} {host : Host σ}
    {st : σ} {α : Type} {ask : Instance σ → α} {answer : α}
    (evaluated : ((p.compile o).toOption.bind fun bs =>
      ((Instance.ofBytes bs host).run st).1.toOption.map ask) = some answer) :
    ∃ bs i after, p.compile o = .ok bs ∧ (Instance.ofBytes bs host).run st = (.ok i, after) ∧
      ask i = answer := by
  obtain ⟨bs, compiled, evaluated⟩ := Option.bind_eq_some_iff.1 evaluated
  obtain ⟨i, made, asked⟩ := Option.map_eq_some_iff.1 evaluated
  exact ⟨bs, i, _, toOption_eq_some.1 compiled, Prod.ext (toOption_eq_some.1 made) rfl, asked⟩

/-- A host that counts what is logged, and that answers, although there is nothing to answer, once
it has counted more than five. -/
def Host.talkative : Host Nat :=
  Host.empty.define "log" fun args => do
    let before ← get
    set (before + args.length)
    return if 5 < before then some (.int 0) else none

/-- The same call twice, a call with too few arguments, and a call of what is not exported. -/
def Program.sampleCalls : List (String × List Scalar) :=
  [("run", [.int 20, .float .one]), ("run", [.int 20, .float .one]), ("run", [.int 20]),
    ("twice", [.int 1])]

/-- The call returns at first, and traps at the answer later; the other two are refused. -/
theorem Program.exchanges_allowed_sample :
    ∃ bs i after, sample.compile ⟨none⟩ = .ok bs ∧
      (Instance.ofBytes bs Host.talkative).run 5 = (.ok i, after) ∧
      ((i.exchanges sampleCalls).run 5).1.map Exchange.outcome =
        [.ok (some (.int 42)), .error (.trapped "run" (.unexpectedAnswer "log")),
          .error (.trapped "run" .badArguments), .error (.missingExport "twice")] ∧
      ∀ e ∈ ((i.exchanges sampleCalls).run 5).1, sample.Allows e := by
  have offers : ∀ f d, sample.get? f = some d → d.isImport = true →
      (Host.talkative.find? d.name).isSome = true := offers_of_all (by decide +kernel)
  obtain ⟨bs, i, after, compiled, made, outcomes⟩ :
      ∃ bs i after, sample.compile ⟨none⟩ = .ok bs ∧
        (Instance.ofBytes bs Host.talkative).run 5 = (.ok i, after) ∧
        ((i.exchanges sampleCalls).run 5).1.map Exchange.outcome =
          [.ok (some (.int 42)), .error (.trapped "run" (.unexpectedAnswer "log")),
            .error (.trapped "run" .badArguments), .error (.missingExport "twice")] :=
    exists_instance (by decide +kernel)
  exact ⟨bs, i, after, compiled, made, outcomes,
    ((exchanges_allowed built_sample compiled offers made _).2 5).2⟩

end WasmForge

import Mathlib
import WasmForge.Proofs.HostBoundary

/-!
# Answers of the wrong type

An answer of a host function can be wrong in two ways.  It may be there although none is due, or not
be there although one is due: the call traps at once.  Or it may be of another type than the import
has: nobody notices, and its bits are read as a value of the declared type.  So every host could as
well answer with the values that its answers are read as, and then no answer would be of the wrong
type.

* `Host.asRead`, `Exchange.asRead`: hosts and exchanges with answers as they are read.
* `Instance.exists_asRead`: instances on a host, and on the host with its answers as they are read.
* `Program.Guards`: only answers that fit are let in.
* `Program.answers_read`: what becomes of the answers of any host.
* `Program.mistyped_answer`: a call that returns, with an answer of the wrong type.
-/

namespace WasmForge

variable {σ : Type}

/-! ## How answers are read -/

/-- The scalar of a type with the same bits. -/
def Scalar.readAs (s : Scalar) : ValueType → Scalar
  | .void => s
  | .int32 => .int s.asInt
  | .float32 => .float s.asSingle

namespace Declaration

variable {d : Declaration}

/-- The answer is of the declared type, or there is none and none is due. -/
def Fits (d : Declaration) (answer : Option Scalar) : Prop :=
  answer.elim .void Scalar.valueType = d.result

/-- What an answer is read as. -/
def readAnswer (d : Declaration) (answer : Option Scalar) : Option Scalar :=
  answer.map (·.readAs d.result)

/-- As it is read, an answer fits exactly if it is as expected. -/
theorem fits_readAnswer {answer : Option Scalar} :
    d.Fits (d.readAnswer answer) ↔ d.Expects answer := by
  unfold Fits readAnswer Expects
  cases result : d.result <;> cases answer <;> simp [Scalar.readAs, Scalar.valueType]
  rename_i s
  cases s <;> simp

/-- An answer gives the results that it gives as it is read. -/
theorem hostResults_readAnswer (answer : Option Scalar) :
    hostResults d.name d.funcType.results (d.readAnswer answer) =
      hostResults d.name d.funcType.results answer := by
  unfold readAnswer funcType
  cases d.result <;> cases answer <;> rfl

end Declaration

/-- What an answer of the host function with a name is read as. -/
def Program.readAnswer (p : Program) (name : String) (answer : Option Scalar) : Option Scalar :=
  match p.decls.find? fun d => d.isImport && d.name == name with
  | some d => d.readAnswer answer
  | none => answer

/-- The invocation with the answer as it is read. -/
def Invocation.asRead (p : Program) (v : Invocation) : Invocation :=
  { v with answer := p.readAnswer v.name v.answer }

/-- The exchange with the answers as they are read. -/
def Exchange.asRead (p : Program) (e : Exchange) : Exchange :=
  { e with invocations := e.invocations.map (.asRead p) }

/-- The function that gives the answers as they are read. -/
def HostFunction.asRead (p : Program) (name : String) (f : HostFunction σ) : HostFunction σ :=
  fun args => p.readAnswer name <$> f args

/-- The host whose functions give their answers as they are read. -/
def Host.asRead (p : Program) (host : Host σ) : Host σ :=
  ⟨host.functions.map fun (name, f) => (name, f.asRead p name)⟩

theorem Host.find?_asRead (p : Program) (host : Host σ) (name : String) :
    (host.asRead p).find? name = (host.find? name).map (.asRead p name) := by
  unfold Host.find? Host.asRead
  dsimp only
  induction host.functions with
  | nil => rfl
  | cons entry fs ih =>
    obtain ⟨first, f⟩ := entry
    rw [List.map_cons, List.lookup_cons, List.lookup_cons]
    by_cases same : name = first
    · simp [same]
    · have other : (name == first) = false := beq_false_of_ne same
      simp [other, ih]

theorem Program.readAnswer_eq {p : Program} (tidy : p.Tidy) {f : FuncRef} {d : Declaration}
    (known : p.get? f = some d) (imported : d.isImport = true) :
    p.readAnswer d.name = d.readAnswer := by
  funext answer
  obtain ⟨-, at_f⟩ := get?_eq_some.1 known
  have mem : d ∈ p.decls := Array.mem_of_getElem? at_f
  unfold readAnswer
  cases found : p.decls.find? fun e => e.isImport && e.name == d.name with
  | none =>
    have other := Array.find?_eq_none.1 found d mem
    simp [imported] at other
  | some e =>
    have matches_d := Array.find?_some found
    obtain ⟨k, at_k⟩ := Array.getElem?_of_mem (Array.mem_of_find?_eq_some found)
    simp only [Bool.and_eq_true, beq_iff_eq] at matches_d
    obtain rfl := tidy.import_eq known imported ((get?_ref p k).trans at_k) matches_d.1 matches_d.2
    rfl

/-! ## Instances on the two hosts -/

/-- A state with a record, with the answers as they are read. -/
def recordAsRead (p : Program) (st : σ × List Invocation) : σ × List Invocation :=
  (st.1, st.2.map (.asRead p))

/-- A function of the host does the same, whether or not it gives its answers as they are read. -/
theorem seenAs_asRead {p : Program} {d : Declaration} (reads : p.readAnswer d.name = d.readAnswer)
    (f : HostFunction σ) (args : List Value) :
    Run.SeenAs (recordAsRead p)
      (callHost d.name d.funcType (f.recorded d.name) args)
      (callHost d.name d.funcType ((f.asRead p d.name).recorded d.name) args) := by
  cases given : args.mapM Value.scalar? with
  | none =>
    rw [callHost, callHost, given]
    exact .throw _
  | some scalars =>
    rintro ⟨st, log⟩
    have asked := run_callHost_recorded d.name d.funcType (f.asRead p d.name) given st
      (log.map (Invocation.asRead p))
    have read : ((f.asRead p d.name) scalars).run st =
        (p.readAnswer d.name ((f scalars).run st).1, ((f scalars).run st).2) := rfl
    rw [run_callHost_recorded _ _ _ given]
    refine Eq.trans ?_ asked.symm
    rw [read, reads, Declaration.hostResults_readAnswer, ← reads]
    simp [recordAsRead, Invocation.asRead]

open Program ModuleDraft

section Instances

variable {p : Program} {n : Numbering} {o : EmitOptions} {imports defined : List Declaration}
  {host : Host σ} (tidy : p.Tidy) (complete : n.Complete) (accepts : Accepts p n o imports defined)
  (fits : ∀ l, o.memory = some l → l.fitMemory = true)
  (offers : ∀ f d, p.get? f = some d → d.isImport = true → (host.find? d.name).isSome = true)

include tidy complete accepts fits offers

/-- With a host, a module also has an instance with the host that gives its answers as they are
read.  The instances do the same, and the invocations are the same but for these answers. -/
theorem Instance.exists_asRead [SingleArith] {i : Instance σ}
    (linked : Instance.link (p.emitted n o (imports ++ defined)) host = .ok i) :
    ∃ j, Instance.link (p.emitted n o (imports ++ defined)) (host.asRead p) = .ok j ∧
      i.recorded.SeenAs (recordAsRead p) j.recorded := by
  have offersAsRead : ∀ f d, p.get? f = some d → d.isImport = true →
      ((host.asRead p).find? d.name).isSome = true := by
    intro f d known imported
    rw [Host.find?_asRead, Option.isSome_map]
    exact offers f d known imported
  obtain ⟨bound, imported, functions, -⟩ := exists_bound tidy complete accepts fits offers
  obtain ⟨bound', imported', functions', -⟩ := exists_bound tidy complete accepts fits offersAsRead
  obtain ⟨ready, _, prepared, bindings, rfl⟩ := Instance.link_eq_ok.1 linked
  obtain rfl := Except.ok.inj (imported.symm.trans bindings)
  refine ⟨_, Instance.link_eq_ok.2 ⟨ready, bound', prepared, imported', rfl⟩, ?_, rfl⟩
  show List.Forall₂ _ ((bound.functions.reverse ++ _).map _) ((bound'.functions.reverse ++ _).map _)
  rw [functions, functions', List.map_append, List.map_append]
  refine List.rel_append ?_ ?_
  · simp only [List.forall₂_map_left_iff, List.forall₂_map_right_iff]
    refine List.forall₂_same.2 fun d mem => ?_
    obtain ⟨f, known⟩ := exists_get? accepts.refs (List.mem_append_left defined mem)
    have imported := accepts.imported d mem
    obtain ⟨run, found⟩ := Option.isSome_iff_exists.1 (offers f d known imported)
    rw [Host.offer, Host.offer, Host.find?_asRead, found]
    exact .host (seenAs_asRead (readAnswer_eq tidy known imported) run)
  · simp only [List.forall₂_map_left_iff, List.forall₂_map_right_iff]
    exact List.forall₂_same.2 fun f _ => .defined f

end Instances

/-- The exchanges of the two instances are the same but for the answers. -/
theorem Instance.SeenAs.exchange_eq [SingleArith] {p : Program} {i j : Instance σ}
    (same : i.recorded.SeenAs (recordAsRead p) j.recorded)
    (name : String) (args : List Scalar) :
    Exchange.asRead p <$> i.exchange name args = j.exchange name args := by
  refine StateT.ext fun st => ?_
  rw [StateT.run_map, run_exchange, run_exchange]
  have ends : (j.recorded.call name args).run (st, []) = _ := (same.call name args (st, [])).symm
  rw [ends]
  rfl

/-! ## What is let in -/

/-- Only answers that fit are let in.  What it is for an answer to fit is left open here. -/
structure Program.Guards (p : Program) (fits : Declaration → Option Scalar → Prop) (e : Exchange) :
    Prop where
  /-- A call returns only if all answers fit. -/
  returned : ∀ x, e.outcome = .ok x → ∀ v ∈ e.invocations, ∃ d, p.Asks d v ∧ fits d v.answer
  /-- The first answer that does not fit ends the call. -/
  ended : ∀ before v rest d, e.invocations = before ++ v :: rest → p.Asks d v →
    ¬fits d v.answer → rest = [] ∧ e.outcome = .error (.trapped e.name d.answerTrap)

namespace Program

variable {p : Program} {e : Exchange} (tidy : p.Tidy)

include tidy

theorem Asks.unique {c d : Declaration} {v : Invocation} (asks : p.Asks c v) (asks' : p.Asks d v) :
    c = d := by
  obtain ⟨f, known⟩ := asks.declared
  obtain ⟨g, known'⟩ := asks'.declared
  exact tidy.import_eq known' asks'.imported known asks.imported (asks.name.trans asks'.name.symm)

theorem Orderly.expects_of_asks {log : List Invocation} (orderly : p.Orderly log) {v : Invocation}
    (mem : v ∈ log) {d : Declaration} (asks : p.Asks d v) : d.Expects v.answer := by
  obtain ⟨f, known⟩ := asks.declared
  exact orderly.expects tidy mem known asks.imported asks.name

/-- Only the last answer of a record that ends wrongly is not as expected. -/
theorem EndsWrongly.last {t : Trap} {before rest : List Invocation} {v : Invocation}
    (wrongly : p.EndsWrongly t (before ++ v :: rest)) {d : Declaration} (asks : p.Asks d v)
    (wrong : ¬d.Expects v.answer) : rest = [] ∧ t = d.answerTrap := by
  obtain ⟨others, last, c, split, orderly, asks', -, rfl⟩ := wrongly
  rcases List.eq_nil_or_concat rest with rfl | ⟨middle, w, rfl⟩
  · obtain ⟨-, same⟩ := List.append_inj' split rfl
    obtain rfl : v = last := List.head_eq_of_cons_eq same
    rw [asks'.unique tidy asks]
    exact ⟨rfl, rfl⟩
  · have shorter : (before ++ v :: middle) ++ [w] = others ++ [last] := by simpa using split
    obtain ⟨rfl, -⟩ := List.append_inj' shorter rfl
    exact absurd (orderly.expects_of_asks tidy (by simp) asks) wrong

/-- However a call goes, only answers are let in that are there exactly when they are due. -/
theorem Ends.guards (ends : p.Ends e) : p.Guards Declaration.Expects e := by
  cases ends with
  | missing none => exact ⟨nofun, fun before v rest d split => by simp at split⟩
  | refused known exported => exact ⟨nofun, fun before v rest d split => by simp at split⟩
  | answered known exported fits orderly typed =>
    refine ⟨fun _ _ => orderly, ?_⟩
    rintro before v rest d rfl asks wrong
    exact absurd (orderly.expects_of_asks tidy (by simp) asks) wrong
  | trapped known exported fits ended =>
    refine ⟨nofun, ?_⟩
    rintro before v rest d rfl asks wrong
    rcases ended with ⟨-, orderly⟩ | wrongly
    · exact absurd (orderly.expects_of_asks tidy (by simp) asks) wrong
    · obtain ⟨rfl, rfl⟩ := wrongly.last tidy asks wrong
      exact ⟨rfl, rfl⟩

omit tidy in
theorem asks_asRead {d : Declaration} {v : Invocation} : p.Asks d (v.asRead p) ↔ p.Asks d v :=
  ⟨fun asks => ⟨asks.declared, asks.imported, asks.name, asks.args⟩,
    fun asks => ⟨asks.declared, asks.imported, asks.name, asks.args⟩⟩

theorem Asks.fits_asRead {d : Declaration} {v : Invocation} (asks : p.Asks d v) :
    d.Fits (v.asRead p).answer ↔ d.Expects v.answer := by
  obtain ⟨f, known⟩ := asks.declared
  rw [Invocation.asRead, ← asks.name, readAnswer_eq tidy known asks.imported]
  exact Declaration.fits_readAnswer

/-- With the answers as they are read, only answers of the declared types are let in. -/
theorem Guards.asRead (guards : p.Guards Declaration.Expects e) :
    p.Guards Declaration.Fits (e.asRead p) := by
  constructor
  · intro x ok v mem
    obtain ⟨v, here, rfl⟩ := List.mem_map.1 mem
    obtain ⟨d, asks, expects⟩ := guards.returned x ok v here
    exact ⟨d, asks_asRead.2 asks, (asks.fits_asRead tidy).2 expects⟩
  · intro before v rest d split asks wrong
    obtain ⟨before, _, whole, rfl, tail⟩ := List.map_eq_append_iff.1 split
    obtain ⟨v, rest, rfl, rfl, rfl⟩ := List.map_eq_cons_iff.1 tail
    rw [asks_asRead] at asks
    rw [asks.fits_asRead tidy] at wrong
    obtain ⟨rfl, ended⟩ := guards.ended before v rest d whole asks wrong
    exact ⟨rfl, ended⟩

end Program

/-- On every host with a function for each import of a program, and whatever these functions answer:
a call of an export returns only if every answer was there exactly when it was due, and the first
answer that was not ends the call, before the host is asked anything else.  The types of answers are
not looked at.  But if every function gave its answers as they are read, as the values of the
declared types with the same bits, all calls would go the same way; and then a call would return
only if every answer was of the declared type, and end with the first one that was not.  Leaving the
record out changes nothing. -/
theorem Program.answers_read [SingleArith] {p : Program} {o : EmitOptions} {bs : Bytes}
    (built : p.Built) (compiled : p.compile o = .ok bs) {host : Host σ}
    (offers : ∀ f d, p.get? f = some d → d.isImport = true → (host.find? d.name).isSome = true)
    {start after : σ} {i : Instance σ}
    (made : (Instance.ofBytes bs host).run start = (.ok i, after)) :
    ∃ j, (Instance.ofBytes bs (host.asRead p)).run start = (.ok j, after) ∧
      ∀ calls, (calls.mapM fun (name, args) => i.call name args) =
          List.map Exchange.outcome <$> i.exchanges calls ∧
        j.exchanges calls = List.map (Exchange.asRead p) <$> i.exchanges calls ∧
        ∀ st, (∀ e ∈ ((i.exchanges calls).run st).1, p.Guards Declaration.Expects e) ∧
          ∀ e ∈ ((j.exchanges calls).run st).1, p.Guards Declaration.Fits e := by
  have tidy := built.tidy
  have complete := complete_usual p
  obtain ⟨imports, defined, accepts, read, fits, bodies⟩ := emitted_of_compile tidy compiled
  obtain ⟨linked, rfl⟩ := (Instance.run_ofBytes_eq_ok read rfl).1 made
  obtain ⟨j, linked', same⟩ := Instance.exists_asRead tidy complete accepts fits offers linked
  have represents := represents_of_link tidy complete accepts fits bodies offers linked
  have guards : ∀ name args st, p.Guards Declaration.Expects ((i.exchange name args).run st).1 :=
    fun name args st => (represents.ends_exchange tidy complete accepts
      (fun _ _ => exported_of_link accepts linked) name args st).guards tidy
  refine ⟨j, (Instance.run_ofBytes_eq_ok read rfl).2 ⟨linked', rfl⟩, ?_⟩
  intro calls
  refine ⟨(i.outcome_exchanges calls).symm,
    (Instance.map_exchanges_eq same.exchange_eq calls).symm, fun st => ⟨?_, ?_⟩⟩
  · exact Instance.forall_mem_exchanges guards calls st
  · refine Instance.forall_mem_exchanges ?_ calls st
    intro name args st
    rw [← same.exchange_eq]
    exact (guards name args st).asRead tidy

/-- An import that is due to give an integer, and an export that returns what it gives. -/
def Program.asking : Program where
  id := 0
  decls := #[
    { name := "get", params := [], result := .int32, linkage := .imported "return 1.5" },
    { name := "run", params := [], result := .int32, linkage := .exported,
      body := some (.ret (.call ⟨0, 0⟩ [])) }]

theorem Program.built_asking : asking.Built := by
  refine ⟨0, [
    .declare "get" [] .int32 (.imported "return 1.5"),
    .declare "run" [] .int32 .exported,
    .define ⟨0, 1⟩ (.ret (.call ⟨0, 0⟩ []))], ?_⟩
  cbv

/-- A host that counts how often it is asked, and gives the number 1.5. -/
def Host.fractional : Host Nat :=
  Host.empty.define "get" fun _ => do
    modify (· + 1)
    return some (.float ⟨0x3FC00000⟩)

/-- What happens when the export is called once on that host. -/
theorem Program.exchanges_asking :
    ∃ bs i after, asking.compile ⟨none⟩ = .ok bs ∧
      (Instance.ofBytes bs Host.fractional).run 0 = (.ok i, after) ∧
      ((i.exchanges [("run", [])]).run 0).1 =
        [⟨"run", [], [⟨"get", [], some (.float ⟨0x3FC00000⟩)⟩], .ok (some (.int 0x3FC00000))⟩] :=
  exists_instance (by decide +kernel)

/-- The answer 1.5 is let in as an integer, and is read as one in the exchange of the other host. -/
theorem Program.answers_read_asking :
    ∃ bs i j after, asking.compile ⟨none⟩ = .ok bs ∧
      (Instance.ofBytes bs Host.fractional).run 0 = (.ok i, after) ∧
      (Instance.ofBytes bs (Host.fractional.asRead asking)).run 0 = (.ok j, after) ∧
      ((j.exchanges [("run", [])]).run 0).1 =
        [⟨"run", [], [⟨"get", [], some (.int 0x3FC00000)⟩], .ok (some (.int 0x3FC00000))⟩] := by
  obtain ⟨bs, i, after, compiled, made, exchanged⟩ := exchanges_asking
  have offers : ∀ f d, asking.get? f = some d → d.isImport = true →
      (Host.fractional.find? d.name).isSome = true := offers_of_all (by decide +kernel)
  obtain ⟨j, made', same⟩ := answers_read built_asking compiled offers made
  refine ⟨bs, i, j, after, compiled, made, made', ?_⟩
  rw [(same _).2.1, StateT.run_map]
  show List.map _ ((i.exchanges [("run", [])]).run 0).1 = _
  rw [exchanged]
  decide +kernel

/-- A call returns although an answer was of the wrong type. -/
theorem Program.mistyped_answer :
    ∃ bs i after, asking.compile ⟨none⟩ = .ok bs ∧
      (Instance.ofBytes bs Host.fractional).run 0 = (.ok i, after) ∧
      ¬∀ e ∈ ((i.exchanges [("run", [])]).run 0).1, asking.Guards Declaration.Fits e := by
  obtain ⟨bs, i, after, compiled, made, exchanged⟩ := exchanges_asking
  refine ⟨bs, i, after, compiled, made, ?_⟩
  rw [exchanged]
  intro guards
  obtain ⟨d, asks, fits⟩ := (guards _ (List.mem_singleton.2 rfl)).returned _ rfl _
    (List.mem_singleton.2 rfl)
  obtain ⟨f, known⟩ := asks.declared
  have integer : d.result = .int32 := of_decide_eq_true
    (forall_of_all (fun _ d => d.result = .int32) (by decide +kernel) f d known)
  rw [Declaration.Fits, integer] at fits
  cases fits

end WasmForge

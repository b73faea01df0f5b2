import Mathlib
import WasmForge.Proofs.Declaring

/-!
# What a program hands out lasts

A program is asked for one thing after another: to declare a function or a local, to define a body,
to name a parameter.  Handles in requests may be of other programs, and requests may be refused.
Whatever the order, a handle that was handed out keeps its meaning, a body stays as it was defined,
and no two declarations have the same handle.

* `Program.Extends`: a later state of a program.
* `Program.Transaction`, `Program.history`: requests, and what becomes of them.
* `Program.Request.carryOut`: requests that change a program in place; they lead to the same.
* `Program.extends_grant`: what a single request does.
* `Program.history_lasts`: what a whole history of requests does.
-/

namespace WasmForge

/-! ## Later states -/

/-- The second declaration is a later state of the first: it may have more locals, and a body if
there was none. -/
structure Declaration.Extends (d e : Declaration) : Prop where
  /-- The name. -/
  name : e.name = d.name
  /-- The parameters. -/
  params : e.params = d.params
  /-- The result. -/
  result : e.result = d.result
  /-- The linkage, with the host's code. -/
  linkage : e.linkage = d.linkage
  /-- Locals are added at the end. -/
  locals : d.locals <+: e.locals
  /-- A body stays. -/
  body : ∀ b, d.body = some b → e.body = some b

namespace Declaration.Extends

variable {c d e : Declaration}

theorem refl (d : Declaration) : d.Extends d :=
  ⟨rfl, rfl, rfl, rfl, List.prefix_refl _, fun _ => id⟩

theorem trans (first : c.Extends d) (second : d.Extends e) : c.Extends e where
  name := second.name.trans first.name
  params := second.params.trans first.params
  result := second.result.trans first.result
  linkage := second.linkage.trans first.linkage
  locals := first.locals.trans second.locals
  body b attached := second.body b (first.body b attached)

/-- Locals keep their types. -/
theorem localType? (later : d.Extends e) {place : Place} {t : ValueType}
    (declared : d.localType? place = some t) : e.localType? place = some t := by
  cases place with
  | param i => rwa [Declaration.localType?, later.params]
  | var i =>
    obtain ⟨more, split⟩ := later.locals
    have inside : i < d.locals.length := (List.getElem?_eq_some_iff.1 declared).1
    rw [Declaration.localType?, ← split, List.getElem?_append_left inside]
    exact declared

end Declaration.Extends

namespace Program

variable {p q r : Program}

/-- The second program is a later state of the first: every declaration is still there. -/
def Extends (p q : Program) : Prop :=
  ∀ f d, p.get? f = some d → ∃ e, q.get? f = some e ∧ d.Extends e

namespace Extends

theorem refl (p : Program) : p.Extends p :=
  fun _ d known => ⟨d, known, .refl d⟩

theorem trans (first : p.Extends q) (second : q.Extends r) : p.Extends r := by
  intro f c known
  obtain ⟨d, known, later⟩ := first f c known
  obtain ⟨e, known, latest⟩ := second f d known
  exact ⟨e, known, later.trans latest⟩

theorem localType? (later : p.Extends q) {l : Local} {t : ValueType}
    (declared : p.localType? l = some t) : q.localType? l = some t := by
  obtain ⟨d, known, declared⟩ := Option.bind_eq_some_iff.1 declared
  obtain ⟨e, known, grown⟩ := later l.owner d known
  exact Option.bind_eq_some_iff.2 ⟨e, known, grown.localType? declared⟩

end Extends

/-- A request leads to a later state. -/
theorem extends_grant {r : Request} {g : Grant} (done : p.grant r = .ok (q, g)) : p.Extends q := by
  rcases (granted_of_grant done).changes with rfl | ⟨e, rfl, -⟩ |
    ⟨f, d, e, known, rfl, name, params, result, linkage, change⟩
  · exact .refl _
  · intro g d known
    exact ⟨d, get?_add_of_owns known, .refl d⟩
  · have grown : d.Extends e := by
      refine ⟨name, params, result, linkage, ?_, ?_⟩
      · rcases change with ⟨t, -, locals, -⟩ | ⟨-, -, locals, -⟩
        · exact ⟨[t], locals.symm⟩
        · rw [locals]
      · intro b attached
        rcases change with ⟨t, -, -, body⟩ | ⟨-, fresh, -, -⟩
        · rwa [body]
        · rw [fresh] at attached
          cases attached
    intro g c found
    rw [get?_set known]
    split
    · rename_i same
      obtain rfl : d = c := Option.some.inj (known.symm.trans (same ▸ found))
      exact ⟨e, rfl, grown⟩
    · exact ⟨c, found, .refl c⟩

/-! ## Requests -/

/-- Does the request ask for a new handle? -/
def Request.isDeclaring : Request → Bool
  | declare .. => true
  | param .. => false
  | addLocal .. => true
  | define .. => false

/-- A request to a program. -/
structure Transaction where
  /-- The program before the request. -/
  before : Program
  /-- The request. -/
  request : Request

namespace Transaction

/-- What is handed out, or why the request is refused. -/
def answer (t : Transaction) : Except DeclareError Grant := (t.before.grant t.request).map (·.2)

/-- The program after the request.  A refusal comes without a program, so the one before it is all
there is; that a program which is changed in place comes to the same is `carryOut_eq`. -/
def after (t : Transaction) : Program :=
  match t.before.grant t.request with
  | .ok (q, _) => q
  | .error _ => t.before

/-- Is the request granted? -/
def granted (t : Transaction) : Bool := t.answer.toBool

/-- The handle is handed out for something newly declared. -/
def Makes (t : Transaction) (g : Grant) : Prop :=
  t.answer = .ok g ∧ t.request.isDeclaring = true

instance (t : Transaction) (g : Grant) : Decidable (t.Makes g) :=
  inferInstanceAs (Decidable (_ ∧ _))

end Transaction

/-- Requests one after the other, each to the program that the ones before it lead to. -/
def history (p : Program) : List Request → List Transaction
  | [] => []
  | r :: rest => ⟨p, r⟩ :: (Transaction.after ⟨p, r⟩).history rest

/-! ## Requests in place -/

/-- Carries out a request on a program that is changed in place.  A request that is refused half-way
would leave behind what it had changed until then. -/
def Request.carryOut : Request → ExceptT DeclareError (StateM Program) Grant
  | .declare name params result linkage => do
    let d : Declaration := { name, params, result, linkage }
    liftExcept ((← get).checkName d)
    liftExcept (checkParams d)
    let index := (← get).size
    modify (·.add d)
    return .func ((← get).ref index)
  | .param f index => do
    let d ← liftExcept ((← get).lookup f)
    if index < d.params.length then return .place ⟨f, .param index⟩
    else throw (.noSuchParam d.name index)
  | .addLocal f type => do
    let d ← liftExcept ((← get).lookup f)
    if type.isStorable then
      modify (·.set f { d with locals := d.locals ++ [type] })
      return .place ⟨f, .var d.locals.length⟩
    else throw (.unsupportedType type "local" d.name)
  | .define f body => do
    let d ← liftExcept ((← get).lookup f)
    if d.isImport then throw (.bodyOnImport d.name)
    if d.body.isSome then throw (.bodyRedefined d.name)
    modify (·.set f { d with body := some body })
    return .done

/-- A check reads the program; if it fails, the program stays as the check found it. -/
theorem run_liftExcept_bind {α β : Type} (check : Except DeclareError α)
    (rest : α → ExceptT DeclareError (StateM Program) β) (p : Program) :
    StateT.run (liftExcept check >>= rest).run p =
      match check with
      | .ok a => StateT.run (rest a).run p
      | .error e => (.error e, p) := by
  cases check <;> rfl

/-- In place, a request is answered in the same way and leads to the same program, because no
request changes anything before its last check. -/
theorem carryOut_eq (t : Transaction) :
    StateT.run t.request.carryOut.run t.before = (t.answer, t.after) := by
  obtain ⟨p, r⟩ := t
  unfold Transaction.answer Transaction.after
  cases r with
  | declare name params result linkage =>
    refine (run_liftExcept_bind (p.checkName { name, params, result, linkage }) _ p).trans ?_
    dsimp only [grant, declare]
    cases named : p.checkName { name, params, result, linkage } with
    | error e => rfl
    | ok _ =>
      refine (run_liftExcept_bind (checkParams { name, params, result, linkage }) _ p).trans ?_
      cases typed : checkParams { name, params, result, linkage } <;> rfl
  | param f index =>
    refine (run_liftExcept_bind (p.lookup f) _ p).trans ?_
    dsimp only [grant, param]
    cases p.lookup f with
    | error e => rfl
    | ok d =>
      dsimp only [bind, Except.bind]
      split <;> rfl
  | addLocal f type =>
    refine (run_liftExcept_bind (p.lookup f) _ p).trans ?_
    dsimp only [grant, addLocal]
    cases p.lookup f with
    | error e => rfl
    | ok d =>
      dsimp only [bind, Except.bind]
      split <;> rfl
  | define f body =>
    refine (run_liftExcept_bind (p.lookup f) _ p).trans ?_
    dsimp only [grant, define]
    cases p.lookup f with
    | error e => rfl
    | ok d =>
      dsimp only [bind, Except.bind]
      split
      · rfl
      · split <;> rfl

/-! ## What a request does -/

theorem get?_ref_size (p : Program) : p.get? (p.ref p.size) = none := by
  rw [get?_ref]
  exact Array.getElem?_eq_none le_rfl

theorem localType?_of_known {f : FuncRef} {d : Declaration} (known : p.get? f = some d)
    (place : Place) : p.localType? ⟨f, place⟩ = d.localType? place := by
  rw [localType?, known, Option.bind_some]

/-- The local that is declared has the type that was asked for. -/
theorem localType?_added {f : FuncRef} {d : Declaration} (known : p.get? f = some d)
    (type : ValueType) :
    (p.set f { d with locals := d.locals ++ [type] }).localType? ⟨f, .var d.locals.length⟩ =
      some type := by
  rw [localType?_of_known (get?_set_self _ known)]
  exact List.getElem?_concat_length

/-! ## What a transaction does -/

namespace Transaction

theorem grant_of_answer {t : Transaction} {g : Grant} (answer : t.answer = .ok g) :
    t.before.grant t.request = .ok (t.after, g) := by
  obtain ⟨⟨q, _⟩, granted, rfl⟩ := map_eq_ok.1 answer
  rw [after, granted]

theorem granted_of_answer {t : Transaction} {g : Grant} (answer : t.answer = .ok g) :
    Granted t.before t.request t.after g :=
  granted_of_grant (grant_of_answer answer)

theorem after_of_refused {t : Transaction} {e : DeclareError} (answer : t.answer = .error e) :
    t.after = t.before := by
  unfold Transaction.answer at answer
  unfold after
  cases granted : t.before.grant t.request with
  | error _ => rfl
  | ok _ =>
    rw [granted] at answer
    cases answer

theorem extends_after (t : Transaction) : t.before.Extends t.after := by
  cases answer : t.answer with
  | ok g => exact extends_grant (grant_of_answer answer)
  | error e =>
    rw [after_of_refused answer]
    exact .refl _

theorem tidy_after {t : Transaction} (tidy : t.before.Tidy) : t.after.Tidy := by
  cases answer : t.answer with
  | ok g => exact tidy.grant (grant_of_answer answer)
  | error e => rwa [after_of_refused answer]

end Transaction

/-- Does what was handed out mean anything to the program? -/
def Knows (p : Program) : Grant → Prop
  | .func f => p.owns f = true
  | .place l => (p.localType? l).isSome = true
  | .done => False

theorem Extends.knows (later : p.Extends q) {g : Grant} (known : p.Knows g) : q.Knows g := by
  cases g with
  | func f =>
    obtain ⟨d, known⟩ := Option.isSome_iff_exists.1 known
    obtain ⟨e, known, -⟩ := later f d known
    exact Option.isSome_iff_exists.2 ⟨e, known⟩
  | place l =>
    obtain ⟨t, declared⟩ := Option.isSome_iff_exists.1 known
    exact Option.isSome_iff_exists.2 ⟨t, later.localType? declared⟩
  | done => exact known

/-- A new handle means nothing before it is handed out, and something afterwards. -/
theorem Transaction.Makes.knows {t : Transaction} {g : Grant} (makes : t.Makes g) :
    ¬t.before.Knows g ∧ t.after.Knows g := by
  obtain ⟨answer, declaring⟩ := makes
  have granted := granted_of_answer answer
  generalize t.request = r, t.after = q at granted declaring ⊢
  cases granted with
  | declare => simp [Knows, owns, get?_ref_size, get?_add_self]
  | param known inside => cases declaring
  | addLocal known =>
    simp [Knows, localType?_added known, localType?_of_known known, Declaration.localType?]
  | define known => cases declaring

/-! ## What lasts -/

/-- After the second transaction, what the first one handed out still means what was asked for, and
the body that it defined is still there. -/
structure Transaction.LastsTo (s t : Transaction) : Prop where
  /-- A function. -/
  func : ∀ f, s.answer = .ok (.func f) → ∃ name params result linkage d,
    s.request = .declare name params result linkage ∧ t.after.get? f = some d ∧ d.name = name ∧
      d.params = params ∧ d.result = result ∧ d.linkage = linkage
  /-- A parameter or a local. -/
  place : ∀ l, s.answer = .ok (.place l) → ∃ type, s.after.localType? l = some type ∧
    t.after.localType? l = some type ∧ ∀ f u, s.request = .addLocal f u → u = type
  /-- A body. -/
  body : s.answer = .ok .done → ∃ f body d,
    s.request = .define f body ∧ t.after.get? f = some d ∧ d.body = some body

theorem Transaction.LastsTo.of_extends {s t : Transaction} (later : s.after.Extends t.after) :
    s.LastsTo t where
  func f answer := by
    have granted := granted_of_answer answer
    generalize s.request = r, s.after = q at granted later
    cases granted with
    | declare =>
      obtain ⟨d, known, grown⟩ := later _ _ (get?_add_self _ _)
      exact ⟨_, _, _, _, d, rfl, known, grown.name, grown.params, grown.result, grown.linkage⟩
  place l answer := by
    have granted := granted_of_answer answer
    generalize s.request = r, s.after = q at granted later ⊢
    cases granted with
    | @param f index d known inside =>
      have declared : s.before.localType? ⟨f, .param index⟩ = some d.params[index].type := by
        simp [localType?_of_known known, Declaration.localType?, inside]
      exact ⟨_, declared, later.localType? declared, nofun⟩
    | addLocal known =>
      refine ⟨_, localType?_added known _, later.localType? (localType?_added known _), ?_⟩
      rintro f u ⟨⟩
      rfl
  body answer := by
    have granted := granted_of_answer answer
    generalize s.request = r, s.after = q at granted later
    cases granted with
    | define known =>
      obtain ⟨e, known, grown⟩ := later _ _ (get?_set_self _ known)
      exact ⟨_, _, e, rfl, known, grown.body _ rfl⟩

/-! ## Histories -/

/-- What holds of the program before every transaction in a history. -/
theorem of_mem_history {requests : List Request} {t : Transaction} (mem : t ∈ p.history requests) :
    p.Extends t.before ∧ (p.Tidy → t.before.Tidy) := by
  induction requests generalizing p with
  | nil => cases mem
  | cons r rest ih =>
    rcases List.mem_cons.1 mem with rfl | mem
    · exact ⟨.refl p, fun tidy => tidy⟩
    · obtain ⟨later, tidy⟩ := ih mem
      have first := Transaction.extends_after ⟨p, r⟩
      exact ⟨first.trans later, fun start => tidy (Transaction.tidy_after start)⟩

/-- What was handed out lasts, and is not handed out again for something else. -/
theorem pairwise_history (p : Program) (requests : List Request) :
    (p.history requests).Pairwise fun s t => s.LastsTo t ∧ ∀ g, s.Makes g → ¬t.Makes g := by
  induction requests generalizing p with
  | nil => exact .nil
  | cons r rest ih =>
    refine List.pairwise_cons.2 ⟨?_, ih _⟩
    intro t mem
    obtain ⟨later, -⟩ := of_mem_history mem
    refine ⟨.of_extends (later.trans t.extends_after), ?_⟩
    intro g first second
    exact second.knows.1 (later.knows first.knows.2)

/-- Refused requests leave no trace: without them, all others are answered in the same way. -/
theorem history_granted (p : Program) (requests : List Request) :
    p.history (((p.history requests).filter (·.granted)).map (·.request)) =
      (p.history requests).filter (·.granted) := by
  induction requests generalizing p with
  | nil => rfl
  | cons r rest ih =>
    rw [history]
    cases answer : Transaction.answer ⟨p, r⟩ with
    | ok g =>
      have granted : Transaction.granted ⟨p, r⟩ = true := by
        rw [Transaction.granted, answer]
        rfl
      rw [List.filter_cons_of_pos granted, List.map_cons, history, ih]
    | error e =>
      have refused : ¬Transaction.granted ⟨p, r⟩ = true := by
        rw [Transaction.granted, answer]
        exact Bool.false_ne_true
      rw [List.filter_cons_of_neg refused, Transaction.after_of_refused answer, ih]

/-- Whatever a new program is asked for, and in whatever order: it stays tidy, and what it hands out
lasts.  After every request, all parameters and locals hold values, the host can see imports and
exports by their names, which are all different, and no import has a body.  A refused request
changes nothing, also if the program is changed in place, and the other requests are answered as
they are without it.  After every later request, a function handle is that of the declaration which
was asked for, a local has its type and a body is the one that was defined; and no two requests
declare something under one handle. -/
theorem history_lasts (id : Nat) (requests : List Request) :
    (∀ t ∈ (empty id).history requests, t.after.Tidy ∧ t.LastsTo t ∧
      StateT.run t.request.carryOut.run t.before = (t.answer, t.after) ∧
      ∀ e, t.answer = .error e → t.after = t.before) ∧
    (empty id).history ((((empty id).history requests).filter (·.granted)).map (·.request)) =
      ((empty id).history requests).filter (·.granted) ∧
    ((empty id).history requests).Pairwise fun s t =>
      s.LastsTo t ∧ ∀ g, s.Makes g → ¬t.Makes g := by
  refine ⟨?_, history_granted _ requests, pairwise_history _ requests⟩
  intro t mem
  have tidy := (of_mem_history mem).2 (tidy_empty id)
  exact ⟨Transaction.tidy_after tidy, .of_extends (.refl _), carryOut_eq t,
    fun _ => Transaction.after_of_refused⟩

end Program

end WasmForge

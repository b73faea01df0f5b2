import Mathlib
import WasmForge.Program.Arena

/-!
# Programs that declaring builds

A program comes from an empty one by declaring functions, adding locals and defining bodies.  What
all such programs have in common is stated once, as `Program.Tidy`, and proved from what a single
request does (`Program.granted_of_grant`).

* `Program.Request`, `Program.grant`: what a program can be asked for, and what it hands out.
* `Program.Built`: the programs that requests lead to.
* `Program.Built.tidy`: parameters and locals hold values, imports have no bodies, and no two
  imports and no two exports share a name.
-/

namespace WasmForge

/-! ## Computations that can fail -/

section Except

variable {ε ε' α β : Type} {x : Except ε α}

/-- A row of computations succeeds exactly when each of them does. -/
theorem bind_eq_ok {f : α → Except ε β} {b : β} :
    x >>= f = .ok b ↔ ∃ a, x = .ok a ∧ f a = .ok b := by
  cases x with
  | error e => simp [bind, Except.bind]
  | ok a => simp [bind, Except.bind]

theorem exists_eq_ok_of_toBool (succeeds : x.toBool = true) : ∃ a, x = .ok a := by
  cases x with
  | error e => cases succeeds
  | ok a => exact ⟨a, rfl⟩

theorem toOption_eq_some {a : α} : x.toOption = some a ↔ x = .ok a := by
  cases x <;> simp [Except.toOption]

theorem mapError_eq_ok {g : ε → ε'} {a : α} : x.mapError g = .ok a ↔ x = .ok a := by
  cases x <;> simp [Except.mapError]

theorem map_eq_ok {g : α → β} {b : β} : x.map g = .ok b ↔ ∃ a, x = .ok a ∧ g a = b := by
  cases x <;> simp [Except.map]

theorem mapM_eq_some {h : α → Option β} {as : List α} {bs : List β} :
    as.mapM h = some bs ↔ as.map h = bs.map some := by
  induction as generalizing bs with
  | nil => cases bs <;> simp
  | cons a as ih =>
    rw [List.mapM_cons, Option.bind_eq_bind, Option.bind_eq_some_iff]
    simp only [Option.bind_eq_bind, Option.bind_eq_some_iff, ih, pure, Option.some.injEq]
    constructor
    · rintro ⟨b, head, rest, tail, rfl⟩
      rw [List.map_cons, List.map_cons, head, tail]
    · intro whole
      cases bs with
      | nil => cases whole
      | cons b rest =>
        rw [List.map_cons, List.map_cons, List.cons.injEq] at whole
        exact ⟨b, whole.1, rest, whole.2, rfl⟩

/-- Look-ups in a row that can fail, each in the two ways of saying so. -/
theorem mapM_eq_ok {g : α → Except ε β} {h : α → Option β}
    (same : ∀ a b, g a = .ok b ↔ h a = some b) {as : List α} {bs : List β} :
    as.mapM g = .ok bs ↔ as.map h = bs.map some := by
  induction as generalizing bs with
  | nil => cases bs <;> simp [pure, Except.pure]
  | cons a as ih =>
    rw [List.mapM_cons, bind_eq_ok]
    simp only [bind_eq_ok, same, ih, pure, Except.pure, Except.ok.injEq]
    constructor
    · rintro ⟨b, first, bs, rest, rfl⟩
      simp [first, rest]
    · intro h
      cases bs with
      | nil => simp at h
      | cons b bs =>
        rw [List.map_cons, List.map_cons, List.cons.injEq] at h
        exact ⟨b, h.1, bs, h.2, rfl⟩

theorem mapM_eq_ok_map {g : α → Except ε β} {h : α → β} {fits : α → Prop}
    (same : ∀ a b, g a = .ok b ↔ fits a ∧ b = h a) {as : List α} {bs : List β} :
    as.mapM g = .ok bs ↔ (∀ a ∈ as, fits a) ∧ bs = as.map h := by
  induction as generalizing bs with
  | nil => simp [pure, Except.pure, eq_comm]
  | cons a as ih =>
    rw [List.mapM_cons, bind_eq_ok]
    simp only [bind_eq_ok, same, ih, pure, Except.pure, Except.ok.injEq, List.forall_mem_cons,
      List.map_cons]
    constructor
    · rintro ⟨_, ⟨first, rfl⟩, _, ⟨rest, rfl⟩, rfl⟩
      exact ⟨⟨first, rest⟩, rfl⟩
    · rintro ⟨⟨first, rest⟩, rfl⟩
      exact ⟨_, ⟨first, rfl⟩, _, ⟨rest, rfl⟩, rfl⟩

end Except

namespace Program

variable {p q : Program}

/-! ## Look-up after an operation -/

theorem get?_add (p : Program) (e : Declaration) (g : FuncRef) :
    (p.add e).get? g = if g = p.ref p.size then some e else p.get? g := by
  split
  · rename_i new
    rw [new]
    exact get?_add_self p e
  · rename_i old
    unfold get? add
    by_cases own : g.program = p.id
    · have other : g.index ≠ p.decls.size := by
        intro last
        exact old (by cases g; simp_all [ref, size])
      simp only [own, if_true, Array.getElem?_push, if_neg other]
    · simp only [own, if_false]

theorem get?_set {f : FuncRef} {d : Declaration} (known : p.get? f = some d) (e : Declaration)
    (g : FuncRef) : (p.set f e).get? g = if g = f then some e else p.get? g := by
  split
  · rename_i same
    rw [same]
    exact get?_set_self e known
  · rename_i other
    by_cases index : g.index = f.index
    · -- the positions agree, so the programs do not and neither look-up finds anything
      have foreign : g.program ≠ p.id := by
        intro own
        have := (get?_eq_some.1 known).1
        exact other (by cases g; cases f; simp_all)
      simp [get?, set, foreign]
    · exact get?_set_of_index_ne e index

/-! ## Requests -/

/-- Something that a program is asked for. -/
inductive Request where
  /-- To declare a function. -/
  | declare (name : String) (params : List Param) (result : ValueType) (linkage : Linkage)
  /-- To name a parameter. -/
  | param (f : FuncRef) (index : Nat)
  /-- To declare a local. -/
  | addLocal (f : FuncRef) (type : ValueType)
  /-- To define a body. -/
  | define (f : FuncRef) (body : Stmt)

/-- What is handed out on a request. -/
inductive Grant where
  /-- A function. -/
  | func (f : FuncRef)
  /-- A parameter or a local. -/
  | place (l : Local)
  /-- Nothing. -/
  | done
  deriving DecidableEq

/-- The program after a request that is not refused, with what is handed out. -/
def grant (p : Program) : Request → Except DeclareError (Program × Grant)
  | .declare name params result linkage =>
    (p.declare name params result linkage).map fun (q, f) => (q, .func f)
  | .param f index => (p.param f index).map fun l => (p, .place l)
  | .addLocal f type => (p.addLocal f type).map fun (q, l) => (q, .place l)
  | .define f body => (p.define f body).map fun q => (q, .done)

/-- The program comes from an empty one by requests that are granted. -/
def Built (p : Program) : Prop :=
  ∃ (id : Nat) (requests : List Request),
    requests.foldlM (fun q r => (q.grant r).map (·.1)) (empty id) = .ok p

theorem declare_eq_ok {name : String} {params : List Param} {result : ValueType}
    {linkage : Linkage} {f : FuncRef} (h : p.declare name params result linkage = .ok (q, f)) :
    p.checkName { name, params, result, linkage } = .ok () ∧
      checkParams { name, params, result, linkage } = .ok () ∧
      q = p.add { name, params, result, linkage } ∧ f = p.ref p.size := by
  obtain ⟨_, named, h⟩ := bind_eq_ok.1 h
  obtain ⟨_, typed, h⟩ := bind_eq_ok.1 h
  cases h
  exact ⟨named, typed, rfl, rfl⟩

theorem lookup_eq_ok {f : FuncRef} {d : Declaration} :
    p.lookup f = .ok d ↔ p.get? f = some d := by
  unfold lookup
  split <;> simp_all

theorem param_eq_ok {f : FuncRef} {index : Nat} {l : Local} (h : p.param f index = .ok l) :
    ∃ d, p.get? f = some d ∧ index < d.params.length ∧ l = ⟨f, .param index⟩ := by
  obtain ⟨d, found, h⟩ := bind_eq_ok.1 h
  split at h
  · rename_i inside
    cases h
    exact ⟨d, lookup_eq_ok.1 found, inside, rfl⟩
  · cases h

theorem addLocal_eq_ok {f : FuncRef} {type : ValueType} {l : Local}
    (h : p.addLocal f type = .ok (q, l)) :
    ∃ d, p.get? f = some d ∧ type.isStorable = true ∧
      q = p.set f { d with locals := d.locals ++ [type] } ∧ l = ⟨f, .var d.locals.length⟩ := by
  obtain ⟨d, found, h⟩ := bind_eq_ok.1 h
  split at h
  · rename_i storable
    cases h
    exact ⟨d, lookup_eq_ok.1 found, storable, rfl, rfl⟩
  · cases h

theorem define_eq_ok {f : FuncRef} {body : Stmt} (h : p.define f body = .ok q) :
    ∃ d, p.get? f = some d ∧ d.isImport = false ∧ d.body = none ∧
      q = p.set f { d with body := some body } := by
  obtain ⟨d, found, h⟩ := bind_eq_ok.1 h
  split at h
  · cases h
  · rename_i defined
    split at h
    · cases h
    · rename_i fresh
      cases h
      exact ⟨d, lookup_eq_ok.1 found, by simpa using defined, by simpa using fresh, rfl⟩

/-- What a request that is granted leads to, and what is handed out. -/
inductive Granted (p : Program) : Request → Program → Grant → Prop where
  /-- The declaration comes last. -/
  | declare {name : String} {params : List Param} {result : ValueType} {linkage : Linkage}
      (named : p.checkName { name, params, result, linkage } = .ok ())
      (typed : checkParams { name, params, result, linkage } = .ok ()) :
      Granted p (.declare name params result linkage) (p.add { name, params, result, linkage })
        (.func (p.ref p.size))
  /-- A parameter is there already. -/
  | param {f : FuncRef} {index : Nat} {d : Declaration} (known : p.get? f = some d)
      (inside : index < d.params.length) :
      Granted p (.param f index) p (.place ⟨f, .param index⟩)
  /-- The local comes last. -/
  | addLocal {f : FuncRef} {type : ValueType} {d : Declaration} (known : p.get? f = some d)
      (storable : type.isStorable = true) :
      Granted p (.addLocal f type) (p.set f { d with locals := d.locals ++ [type] })
        (.place ⟨f, .var d.locals.length⟩)
  /-- The function gets the body. -/
  | define {f : FuncRef} {body : Stmt} {d : Declaration} (known : p.get? f = some d)
      (defined : d.isImport = false) (fresh : d.body = none) :
      Granted p (.define f body) (p.set f { d with body := some body }) .done

theorem granted_of_grant {r : Request} {g : Grant} (h : p.grant r = .ok (q, g)) :
    Granted p r q g := by
  cases r with
  | declare name params result linkage =>
    obtain ⟨⟨q, f⟩, done, ⟨⟩⟩ := map_eq_ok.1 h
    obtain ⟨named, typed, rfl, rfl⟩ := declare_eq_ok done
    exact .declare named typed
  | param f index =>
    obtain ⟨l, done, ⟨⟩⟩ := map_eq_ok.1 h
    obtain ⟨d, known, inside, rfl⟩ := param_eq_ok done
    exact .param known inside
  | addLocal f type =>
    obtain ⟨⟨q, l⟩, done, ⟨⟩⟩ := map_eq_ok.1 h
    obtain ⟨d, known, storable, rfl, rfl⟩ := addLocal_eq_ok done
    exact .addLocal known storable
  | define f body =>
    obtain ⟨q, done, ⟨⟩⟩ := map_eq_ok.1 h
    obtain ⟨d, known, defined, fresh, rfl⟩ := define_eq_ok done
    exact .define known defined fresh

/-- A request changes nothing, or it adds a checked declaration without locals and body, or it
changes the locals or the body of one declaration. -/
theorem Granted.changes {r : Request} {g : Grant} (granted : Granted p r q g) :
    q = p ∨
    (∃ d, q = p.add d ∧ p.checkName d = .ok () ∧ checkParams d = .ok () ∧ d.locals = [] ∧
      d.body = none) ∨
    (∃ f d e, p.get? f = some d ∧ q = p.set f e ∧ e.name = d.name ∧ e.params = d.params ∧
      e.result = d.result ∧ e.linkage = d.linkage ∧
      ((∃ t, t.isStorable = true ∧ e.locals = d.locals ++ [t] ∧ e.body = d.body) ∨
        (d.isImport = false ∧ d.body = none ∧ e.locals = d.locals ∧ ∃ b, e.body = some b))) := by
  cases granted with
  | declare named typed => exact .inr (.inl ⟨_, rfl, named, typed, rfl, rfl⟩)
  | param => exact .inl rfl
  | @addLocal f type d known storable =>
    exact .inr (.inr ⟨f, d, _, known, rfl, rfl, rfl, rfl, rfl, .inl ⟨_, storable, rfl, rfl⟩⟩)
  | @define f body d known defined fresh =>
    exact .inr (.inr ⟨f, d, _, known, rfl, rfl, rfl, rfl, rfl, .inr ⟨defined, fresh, rfl, _, rfl⟩⟩)

end Program

/-! ## What requests keep up -/

/-- What every declaration of a program that requests build is like. -/
structure Declaration.Tidy (d : Declaration) : Prop where
  /-- Parameters hold values. -/
  params : ∀ x ∈ d.params, x.type.isStorable = true
  /-- Locals hold values. -/
  locals : ∀ t ∈ d.locals, t.isStorable = true
  /-- The host can see imports and exports by their names. -/
  name : d.linkage ≠ .internal → Program.isHostName d.name = true
  /-- The body of an import is the host's. -/
  body : d.isImport = true → d.body = none

/-- The type of the values that a parameter or local of the type holds. -/
def ValueType.held (t : ValueType) : ValType := t.valType?.getD .i32

theorem ValueType.valType?_eq_some {t : ValueType} (storable : t.isStorable = true) :
    t.valType? = some t.held := by
  cases t <;> first | rfl | cases storable

theorem Declaration.Tidy.params_funcType {d : Declaration} (tidy : d.Tidy) :
    d.funcType.params = d.params.map (·.type.held) := by
  have all : ∀ ps : List Param, (∀ x ∈ ps, x.type.isStorable = true) →
      ps.filterMap (·.type.valType?) = ps.map (·.type.held) := by
    intro ps storable
    induction ps with
    | nil => rfl
    | cons x ps ih =>
      rw [List.filterMap_cons, ValueType.valType?_eq_some (storable x List.mem_cons_self),
        List.map_cons, ih fun y hy => storable y (List.mem_cons_of_mem x hy)]
  exact all d.params tidy.params

/-- Every parameter has a type in the type of the function. -/
theorem Declaration.Tidy.map_some_params {d : Declaration} (tidy : d.Tidy) :
    d.funcType.params.map some = d.params.map (·.type.valType?) := by
  rw [tidy.params_funcType, List.map_map]
  exact List.map_congr_left fun x mem => (ValueType.valType?_eq_some (tidy.params x mem)).symm

theorem Declaration.Tidy.storable {d : Declaration} (tidy : d.Tidy) (place : Place) (t : ValueType)
    (declared : d.localType? place = some t) : t.isStorable = true := by
  cases place with
  | param i =>
    obtain ⟨q, at_i, rfl⟩ := Option.map_eq_some_iff.1 declared
    exact tidy.params q (List.mem_of_getElem? at_i)
  | var i => exact tidy.locals t (List.mem_of_getElem? declared)

/-- What every program that operations build is like. -/
structure Program.Tidy (p : Program) : Prop where
  /-- Each declaration is tidy. -/
  decls : ∀ f d, p.get? f = some d → d.Tidy
  /-- Imports have different names. -/
  imports : ∀ f g d e, p.get? f = some d → p.get? g = some e → d.isImport = true →
    e.isImport = true → d.name = e.name → f = g
  /-- Exports have different names. -/
  exports : ∀ f g d e, p.get? f = some d → p.get? g = some e → d.isExport = true →
    e.isExport = true → d.name = e.name → f = g

namespace Program

variable {p q : Program}

theorem checkParams_eq_ok {d : Declaration} :
    checkParams d = .ok () ↔ ∀ x ∈ d.params, x.type.isStorable = true := by
  unfold checkParams
  split
  · rename_i x found
    have := List.find?_some found
    have := List.mem_of_find?_eq_some found
    simp_all
    exact ⟨x, by assumption, by assumption⟩
  · rename_i none
    simpa [List.find?_eq_none] using none

theorem checkName_eq_ok {d : Declaration} (h : p.checkName d = .ok ()) :
    (d.linkage ≠ .internal → isHostName d.name = true) ∧
      (d.isExport = true → p.hasExport d.name = false) ∧
      (d.isImport = true → p.hasImport d.name = false) := by
  unfold checkName at h
  cases link : d.linkage with
  | internal => simp [Declaration.isExport, Declaration.isImport, Linkage.isImport, link]
  | exported =>
    simp only [link] at h
    split at h
    · simp at h
    · split at h
      · simp at h
      · simp_all [Declaration.isImport, Linkage.isImport]
  | imported code =>
    simp only [link] at h
    split at h
    · simp at h
    · split at h
      · simp at h
      · simp_all [Declaration.isExport]

/-- A condition holds somewhere in the list of declarations exactly when a handle names one that
satisfies it. -/
theorem any_decls_iff {test : Declaration → Bool} :
    p.decls.any test = true ↔ ∃ f d, p.get? f = some d ∧ test d = true := by
  constructor
  · intro h
    obtain ⟨i, lt, found⟩ := Array.any_eq_true.1 h
    refine ⟨p.ref i, p.decls[i], ?_, found⟩
    rw [get?_ref, Array.getElem?_eq_getElem lt]
  · rintro ⟨f, d, known, holds⟩
    exact Array.any_eq_true'.2 ⟨d, Array.mem_of_getElem? (get?_eq_some.1 known).2, holds⟩

theorem hasImport_iff {name : String} :
    p.hasImport name = true ↔ ∃ f d, p.get? f = some d ∧ d.isImport = true ∧ d.name = name := by
  rw [hasImport, any_decls_iff]
  simp

theorem hasExport_iff {name : String} :
    p.hasExport name = true ↔ ∃ f d, p.get? f = some d ∧ d.isExport = true ∧ d.name = name := by
  rw [hasExport, any_decls_iff]
  simp

/-- Names that are different among the declarations of one kind stay so when a declaration with a
new name is added. -/
theorem distinct_add {kind : Declaration → Bool} {e : Declaration}
    (old : ∀ f g c d, p.get? f = some c → p.get? g = some d → kind c = true → kind d = true →
      c.name = d.name → f = g)
    (new : kind e = true → ∀ f d, p.get? f = some d → kind d = true → d.name ≠ e.name) :
    ∀ f g c d, (p.add e).get? f = some c → (p.add e).get? g = some d → kind c = true →
      kind d = true → c.name = d.name → f = g := by
  intro f g c d hf hg kc kd same
  rw [get?_add] at hf hg
  split at hf <;> split at hg
  · simp_all
  · cases hf
    exact absurd same.symm (new kc g d hg kd)
  · cases hg
    exact absurd same (new kd f c hf kc)
  · exact old f g c d hf hg kc kd same

/-- Names that are different among the declarations of one kind stay so when a declaration is
replaced by one with the same name and kind. -/
theorem distinct_set {kind : Declaration → Bool} {h : FuncRef} {b e : Declaration}
    (known : p.get? h = some b) (name : e.name = b.name) (kinds : kind e = kind b)
    (old : ∀ f g c d, p.get? f = some c → p.get? g = some d → kind c = true → kind d = true →
      c.name = d.name → f = g) :
    ∀ f g c d, (p.set h e).get? f = some c → (p.set h e).get? g = some d → kind c = true →
      kind d = true → c.name = d.name → f = g := by
  have before : ∀ f c, (p.set h e).get? f = some c → kind c = true →
      ∃ c', p.get? f = some c' ∧ kind c' = true ∧ c'.name = c.name := by
    intro f c hf kc
    rw [get?_set known] at hf
    split at hf
    · rename_i same
      cases hf
      exact ⟨b, same ▸ known, kinds ▸ kc, name.symm⟩
    · exact ⟨c, hf, kc, rfl⟩
  intro f g c d hf hg kc kd same
  obtain ⟨c', hf', kc', nc⟩ := before f c hf kc
  obtain ⟨d', hg', kd', nd⟩ := before g d hg kd
  exact old f g c' d' hf' hg' kc' kd' (by rw [nc, nd, same])

/-- A request leaves a tidy program tidy. -/
theorem Tidy.grant {r : Request} {g : Grant} (tidy : p.Tidy) (done : p.grant r = .ok (q, g)) :
    q.Tidy := by
  rcases (granted_of_grant done).changes with rfl | ⟨e, rfl, named, typed, locals, body⟩ |
    ⟨h, d, e, known, rfl, name, params, -, linkage, change⟩
  · exact tidy
  · obtain ⟨visible, exportNew, importNew⟩ := checkName_eq_ok named
    refine ⟨?_, ?_, ?_⟩
    · intro f d hf
      rw [get?_add] at hf
      split at hf
      · cases hf
        exact ⟨checkParams_eq_ok.1 typed, by simp [locals], visible, fun _ => body⟩
      · exact tidy.decls f d hf
    · refine distinct_add tidy.imports ?_
      intro imported f d hf kd same
      have : p.hasImport e.name = true := hasImport_iff.2 ⟨f, d, hf, kd, same⟩
      simp [importNew imported] at this
    · refine distinct_add tidy.exports ?_
      intro exported f d hf kd same
      have : p.hasExport e.name = true := hasExport_iff.2 ⟨f, d, hf, kd, same⟩
      simp [exportNew exported] at this
  · have sameImport : e.isImport = d.isImport := by simp [Declaration.isImport, linkage]
    have sameExport : e.isExport = d.isExport := by simp [Declaration.isExport, linkage]
    refine ⟨?_, distinct_set known name sameImport tidy.imports,
      distinct_set known name sameExport tidy.exports⟩
    intro f c hf
    rw [get?_set known] at hf
    split at hf
    · cases hf
      have old := tidy.decls h d known
      refine ⟨params ▸ old.params, ?_, by rw [linkage, name]; exact old.name, ?_⟩
      · rcases change with ⟨t, storable, locals, -⟩ | ⟨-, -, locals, -⟩
        · intro u hu
          rw [locals, List.mem_append, List.mem_singleton] at hu
          rcases hu with hu | rfl
          · exact old.locals u hu
          · exact storable
        · rw [locals]
          exact old.locals
      · intro imported
        rw [sameImport] at imported
        rcases change with ⟨-, -, -, body⟩ | ⟨defined, -⟩
        · rw [body]
          exact old.body imported
        · rw [defined] at imported
          cases imported
    · exact tidy.decls f c hf

theorem tidy_empty (id : Nat) : (empty id).Tidy := by
  have nothing : ∀ f, (empty id).get? f = none := by
    intro f
    simp [get?, empty]
  exact ⟨by simp [nothing], by simp [nothing], by simp [nothing]⟩

/-- Requests in a row leave a tidy program tidy. -/
theorem Tidy.run {requests : List Request} (tidy : p.Tidy)
    (done : requests.foldlM (fun q r => (q.grant r).map (·.1)) p = .ok q) : q.Tidy := by
  induction requests generalizing p with
  | nil =>
    cases done
    exact tidy
  | cons r requests ih =>
    obtain ⟨next, head, tail⟩ := bind_eq_ok.1 (List.foldlM_cons.symm.trans done)
    obtain ⟨⟨_, g⟩, granted, rfl⟩ := map_eq_ok.1 head
    exact ih (tidy.grant granted) tail

/-- Every program that requests build is tidy. -/
theorem Built.tidy (built : p.Built) : p.Tidy := by
  obtain ⟨id, requests, done⟩ := built
  exact (tidy_empty id).run done

/-! ## An example -/

/-- A body for the function `⟨7, 0⟩`: it logs a product with `⟨7, 1⟩`, and returns two more than
what `⟨7, 2⟩` gives. -/
def sampleRun : Stmt :=
  let own (place : Place) : Local := ⟨⟨7, 0⟩, place⟩
  .block [
    .assign (own (.var 0)) (.arith .mul (.var (own (.param 1))) (.float .one)),
    .expr (.call ⟨7, 1⟩ [.var (own (.var 0))]),
    .assign (own (.var 1)) (.arith .add (.call ⟨7, 2⟩ [.var (own (.param 0))]) (.int 1)),
    .increment (own (.var 1)),
    .ret (.var (own (.var 1)))]

/-- A body for the function `⟨7, 2⟩`: it returns twice its parameter. -/
def sampleTwice : Stmt :=
  .ret (.arith .add (.var ⟨⟨7, 2⟩, .param 0⟩) (.var ⟨⟨7, 2⟩, .param 0⟩))

/-- A program with one function of each kind, the import between the others. -/
def sample : Program where
  id := 7
  decls := #[
    { name := "run", params := [⟨.int32, "n"⟩, ⟨.float32, "x"⟩], result := .int32,
      linkage := .exported, locals := [.float32, .int32], body := some sampleRun },
    { name := "log", params := [⟨.float32, "x"⟩], result := .void,
      linkage := .imported "print(x)" },
    { name := "twice", params := [⟨.int32, "n"⟩], result := .int32, linkage := .internal,
      body := some sampleTwice }]

theorem built_sample : sample.Built := by
  refine ⟨7, [
    .declare "run" [⟨.int32, "n"⟩, ⟨.float32, "x"⟩] .int32 .exported,
    .declare "log" [⟨.float32, "x"⟩] .void (.imported "print(x)"),
    .declare "twice" [⟨.int32, "n"⟩] .int32 .internal,
    .addLocal ⟨7, 0⟩ .float32,
    .addLocal ⟨7, 0⟩ .int32,
    .define ⟨7, 0⟩ sampleRun,
    .define ⟨7, 2⟩ sampleTwice], ?_⟩
  cbv

end Program

end WasmForge

import Mathlib
import WasmForge.Proofs.Histories

/-!
# Handles among several programs

In a session, programs are created, copied and asked for things, in any order.  Every program that
is created gets an identity of its own, and a copy keeps the identity of what it was copied from.
Since handles carry the identity of the program that handed them out, a handle means nothing to a
program that was created apart from that one.  Copies are another matter: when two copies go on
declaring, each of them hands out the same handles, and takes those of the other for its own.

* `Session`, `Session.run`: programs and what was asked of them.
* `Session.Accounted`: whatever a program of a session knows was asked for in the session.
* `Session.Separate`: what holds as long as nothing is copied.
* `Session.Sole`: a handle was handed out for one thing only.
* `Session.handles_agree`: such a handle means that thing to every program of the session, or
  nothing, and no other handle does.
* `Session.copies_disagree`: two copies that hand out one handle for two functions.
-/

namespace WasmForge

namespace Program

variable {p : Program}

/-! ## Where declarations come from -/

theorem localType?_add (p : Program) (e : Declaration) (l : Local) :
    (p.add e).localType? l =
      if l.owner = p.ref p.size then e.localType? l.place else p.localType? l := by
  rw [localType?, get?_add]
  split <;> rfl

theorem localType?_set {f : FuncRef} {d : Declaration} (known : p.get? f = some d)
    (e : Declaration) (l : Local) :
    (p.set f e).localType? l = if l.owner = f then e.localType? l.place else p.localType? l := by
  rw [localType?, get?_set known]
  split <;> rfl

/-- What has to be declared for a handle to be handed out.  Parameters are declared with their
functions. -/
def Grant.source : Grant → Grant
  | .place ⟨f, .param _⟩ => .func f
  | g => g

/-- Handles mean something only to programs of one identity. -/
theorem Knows.id_eq {g : Grant} {q : Program} (known : p.Knows g) (known' : q.Knows g) :
    p.id = q.id := by
  cases g with
  | func f => exact (owns_iff.1 known).1.symm.trans (owns_iff.1 known').1
  | place l =>
    obtain ⟨t, declared⟩ := Option.isSome_iff_exists.1 known
    obtain ⟨t', declared'⟩ := Option.isSome_iff_exists.1 known'
    obtain ⟨d, known, -⟩ := Option.bind_eq_some_iff.1 declared
    obtain ⟨e, known', -⟩ := Option.bind_eq_some_iff.1 declared'
    exact (get?_eq_some.1 known).1.symm.trans (get?_eq_some.1 known').1
  | done => exact known.elim

namespace Transaction

variable {t : Transaction} {f : FuncRef}

/-- A new handle of a place is that of a local. -/
theorem Makes.addLocal {l : Local} (makes : t.Makes (.place l)) :
    ∃ type, t.request = .addLocal l.owner type ∧ t.after.localType? l = some type := by
  obtain ⟨answer, declaring⟩ := makes
  have granted := granted_of_answer answer
  generalize t.request = r, t.after = q at granted declaring ⊢
  cases granted with
  | param known inside => cases declaring
  | addLocal known => exact ⟨_, rfl, localType?_added known _⟩

/-- To the program, what was handed out means what was asked for, or nothing. -/
structure AgreesWith (t : Transaction) (b : Program) : Prop where
  /-- A function. -/
  func : ∀ f, t.answer = .ok (.func f) → b.get? f = none ∨
    ∃ d, b.get? f = some d ∧ t.request = .declare d.name d.params d.result d.linkage
  /-- A parameter or a local. -/
  place : ∀ l, t.answer = .ok (.place l) → ∃ type, t.after.localType? l = some type ∧
    (∀ f u, t.request = .addLocal f u → u = type) ∧
    (b.localType? l = none ∨ b.localType? l = some type)

/-- Programs keep their identities. -/
theorem id_after (t : Transaction) : t.after.id = t.before.id := by
  cases answer : t.answer with
  | error e => rw [after_of_refused answer]
  | ok g =>
    have granted := granted_of_answer answer
    generalize t.request = r, t.after = q at granted
    cases granted <;> rfl

/-- What is declared after a request was declared before it, or it is what was asked for. -/
theorem source_func {d : Declaration} (known : t.after.get? f = some d) :
    (∃ c, t.before.get? f = some c ∧ c.Extends d) ∨
      t.Makes (.func f) ∧ t.request = .declare d.name d.params d.result d.linkage := by
  cases old : t.before.get? f with
  | some c =>
    obtain ⟨e, found, grown⟩ := t.extends_after f c old
    obtain rfl : e = d := Option.some.inj (found.symm.trans known)
    exact .inl ⟨c, rfl, grown⟩
  | none =>
    refine .inr ?_
    cases answer : t.answer with
    | error e =>
      rw [after_of_refused answer, old] at known
      cases known
    | ok g =>
      have granted := granted_of_answer answer
      unfold Makes
      rw [answer]
      generalize t.request = r, t.after = q at granted known ⊢
      cases granted with
      | declare =>
        rw [get?_add] at known
        split at known
        · rename_i new
          cases known
          exact ⟨⟨by rw [new], rfl⟩, rfl⟩
        · rw [old] at known
          cases known
      | param _ _ =>
        rw [old] at known
        cases known
      | addLocal there | define there =>
        rw [get?_set there] at known
        split at known
        · rename_i same
          rw [same, there] at old
          cases old
        · rw [old] at known
          cases known

/-- A local that is declared after a request was declared before it, or it is what was asked
for. -/
theorem source_var {i : Nat} {u : ValueType} (declared : t.after.localType? ⟨f, .var i⟩ = some u) :
    t.before.localType? ⟨f, .var i⟩ = some u ∨
      t.Makes (.place ⟨f, .var i⟩) ∧ t.request = .addLocal f u := by
  cases old : t.before.localType? ⟨f, .var i⟩ with
  | some v =>
    refine .inl ?_
    rw [← declared, t.extends_after.localType? old]
  | none =>
    refine .inr ?_
    cases answer : t.answer with
    | error e =>
      rw [after_of_refused answer, old] at declared
      cases declared
    | ok g =>
      have granted := granted_of_answer answer
      unfold Makes
      rw [answer]
      generalize t.request = r, t.after = q at granted declared ⊢
      cases granted with
      | declare =>
        rw [localType?_add] at declared
        split at declared
        · cases declared
        · rw [old] at declared
          cases declared
      | param _ _ =>
        rw [old] at declared
        cases declared
      | @addLocal g type d there =>
        rw [localType?_set there] at declared
        split at declared
        · rename_i same
          obtain rfl : f = g := same
          rw [localType?_of_known there] at old
          have past : d.locals.length ≤ i := List.getElem?_eq_none_iff.1 old
          have inside : i < (d.locals ++ [type]).length := (List.getElem?_eq_some_iff.1 declared).1
          obtain rfl : i = d.locals.length := by
            rw [List.length_append, List.length_singleton] at inside
            omega
          have last : (d.locals ++ [type])[d.locals.length]? = some type :=
            List.getElem?_concat_length
          obtain rfl : type = u := Option.some.inj (last.symm.trans declared)
          exact ⟨⟨rfl, rfl⟩, rfl⟩
        · rw [old] at declared
          cases declared
      | define there =>
        rw [localType?_set there] at declared
        split at declared
        · rename_i same
          obtain rfl := same
          rw [localType?_of_known there] at old
          exact absurd (old.symm.trans declared) nofun
        · rw [old] at declared
          cases declared

end Transaction

end Program

open Program

/-! ## Sessions -/

/-- A step of a session. -/
inductive Session.Step where
  /-- Creates a program. -/
  | create
  /-- Copies the program at a position. -/
  | copy (i : Nat)
  /-- Asks something of the program at a position. -/
  | ask (i : Nat) (r : Request)

/-- Several programs at once. -/
structure Session where
  /-- The number of programs created so far, which is the next identity. -/
  created : Nat
  /-- All programs, copies included, in the order in which they came about. -/
  programs : List Program
  /-- What was asked of them, last one last. -/
  log : List Transaction

namespace Session

/-- The session after a step.  Nothing happens to a program that is not there. -/
def step (s : Session) : Step → Session
  | .create =>
    { s with created := s.created + 1, programs := s.programs ++ [.empty s.created] }
  | .copy i => { s with programs := s.programs ++ s.programs[i]?.toList }
  | .ask i r =>
    match s.programs[i]? with
    | none => s
    | some p =>
      { s with
        programs := s.programs.set i (Transaction.after ⟨p, r⟩)
        log := s.log ++ [⟨p, r⟩] }

/-- The session after steps, first to last. -/
def run (steps : List Step) : Session := steps.foldl step ⟨0, [], []⟩

theorem run_concat (steps : List Step) (c : Step) : run (steps ++ [c]) = (run steps).step c := by
  rw [run, List.foldl_append]
  rfl

variable {s : Session} {b : Program}

/-! ## Everything known was asked for -/

/-- The program is in the session, or was at some time. -/
def Seen (s : Session) (b : Program) : Prop :=
  b ∈ s.programs ∨ ∃ t ∈ s.log, t.after = b

/-- The log only grows. -/
theorem log_step (s : Session) (c : Step) : s.log <+: (s.step c).log := by
  cases c with
  | create | copy i => exact List.prefix_refl _
  | ask i r =>
    rw [step]
    split
    · exact List.prefix_refl _
    · exact List.prefix_append _ _

/-- A step brings an empty program, or a program after a request. -/
theorem seen_step {c : Step} (seen : (s.step c).Seen b) :
    s.Seen b ∨ (∃ id, b = .empty id) ∨ ∃ t ∈ (s.step c).log, s.Seen t.before ∧ t.after = b := by
  cases c with
  | create =>
    rcases seen with mem | logged
    · rcases List.mem_append.1 mem with mem | mem
      · exact .inl (.inl mem)
      · exact .inr (.inl ⟨s.created, List.mem_singleton.1 mem⟩)
    · exact .inl (.inr logged)
  | copy i =>
    rcases seen with mem | logged
    · rcases List.mem_append.1 mem with mem | mem
      · exact .inl (.inl mem)
      · exact .inl (.inl (List.mem_of_getElem? (Option.mem_toList.1 mem)))
    · exact .inl (.inr logged)
  | ask i r =>
    rw [step] at seen ⊢
    split at seen
    · exact .inl seen
    · rename_i p here
      have new : (⟨p, r⟩ : Transaction) ∈ s.log ++ [⟨p, r⟩] := List.mem_concat_self
      have there : s.Seen p := .inl (List.mem_of_getElem? here)
      rcases seen with mem | ⟨t, mem, rfl⟩
      · rcases List.mem_or_eq_of_mem_set mem with mem | rfl
        · exact .inl (.inl mem)
        · exact .inr (.inr ⟨_, new, there, rfl⟩)
      · rcases List.mem_append.1 mem with mem | mem
        · exact .inl (.inr ⟨t, mem, rfl⟩)
        · obtain rfl := List.mem_singleton.1 mem
          exact .inr (.inr ⟨_, new, there, rfl⟩)

/-- Whatever a program of the session knows was asked for in the session. -/
structure Accounted (s : Session) : Prop where
  /-- Functions. -/
  funcs : ∀ b f d, s.Seen b → b.get? f = some d → ∃ t ∈ s.log,
    t.Makes (.func f) ∧ t.request = .declare d.name d.params d.result d.linkage
  /-- Locals. -/
  vars : ∀ b f i u, s.Seen b → b.localType? ⟨f, .var i⟩ = some u → ∃ t ∈ s.log,
    t.Makes (.place ⟨f, .var i⟩) ∧ t.request = .addLocal f u

theorem Accounted.step (accounted : s.Accounted) (c : Step) : (s.step c).Accounted where
  funcs b f d seen known := by
    rcases seen_step seen with seen | ⟨id, rfl⟩ | ⟨t, logged, before, rfl⟩
    · obtain ⟨t, logged, made⟩ := accounted.funcs b f d seen known
      exact ⟨t, (log_step s c).subset logged, made⟩
    · simp [get?, empty] at known
    · rcases t.source_func known with ⟨e, known, grown⟩ | made
      · obtain ⟨u, logged, made⟩ := accounted.funcs _ f e before known
        refine ⟨u, (log_step s c).subset logged, ?_⟩
        rwa [grown.name, grown.params, grown.result, grown.linkage]
      · exact ⟨t, logged, made⟩
  vars b f i u seen declared := by
    rcases seen_step seen with seen | ⟨id, rfl⟩ | ⟨t, logged, before, rfl⟩
    · obtain ⟨t, logged, made⟩ := accounted.vars b f i u seen declared
      exact ⟨t, (log_step s c).subset logged, made⟩
    · simp [localType?, get?, empty] at declared
    · rcases t.source_var declared with declared | made
      · obtain ⟨t, logged, made⟩ := accounted.vars _ f i u before declared
        exact ⟨t, (log_step s c).subset logged, made⟩
      · exact ⟨t, logged, made⟩

theorem accounted_run (steps : List Step) : (run steps).Accounted := by
  induction steps using List.reverseRecOn with
  | nil =>
    have none : ∀ b, ¬(run []).Seen b := by simp [Seen, run]
    exact ⟨fun b _ _ seen => absurd seen (none b), fun b _ _ _ seen => absurd seen (none b)⟩
  | append_singleton steps c ih =>
    rw [run_concat]
    exact ih.step c

/-! ## Nothing is handed out twice -/

/-- All requests that were handed out the handle for something new asked for the same thing. -/
def Sole (s : Session) (g : Grant) : Prop :=
  ∀ t ∈ s.log, ∀ u ∈ s.log, t.Makes g → u.Makes g → t.request = u.request

theorem sole_of_pairwise {g : Grant} (once : s.log.Pairwise fun t u => t.Makes g → ¬u.Makes g) :
    s.Sole g := by
  have symm : Std.Symm fun t u : Transaction => t.Makes g → ¬u.Makes g :=
    ⟨fun _ _ h second first => h first second⟩
  intro t logged u logged' makes makes'
  by_contra other
  exact once.forall logged logged' (fun same => other (congrArg _ same)) makes makes'

/-- What holds of a session in which nothing is copied. -/
structure Separate (s : Session) : Prop where
  /-- The programs have different identities. -/
  ids : (s.programs.map (·.id)).Nodup
  /-- The next identity is a new one. -/
  bound : ∀ b ∈ s.programs, b.id < s.created
  /-- What was handed out means something. -/
  known : ∀ t ∈ s.log, ∀ g, t.Makes g → ∃ b ∈ s.programs, b.Knows g
  /-- Nothing was handed out twice. -/
  once : ∀ g, s.log.Pairwise fun t u => t.Makes g → ¬u.Makes g

theorem Separate.create (separate : s.Separate) : (s.step .create).Separate where
  ids := by
    have fresh : s.created ∉ s.programs.map (·.id) := by
      intro mem
      obtain ⟨b, mem, same⟩ := List.mem_map.1 mem
      exact absurd same (separate.bound b mem).ne
    rw [step, List.map_append]
    exact separate.ids.append (List.nodup_singleton _) (List.disjoint_singleton.2 fresh)
  bound b mem := by
    show b.id < s.created + 1
    rcases List.mem_append.1 mem with mem | mem
    · exact (separate.bound b mem).trans (Nat.lt_succ_self _)
    · rw [List.mem_singleton.1 mem]
      exact Nat.lt_succ_self _
  known t logged g makes := by
    obtain ⟨b, mem, known⟩ := separate.known t logged g makes
    exact ⟨b, List.mem_append_left _ mem, known⟩
  once := separate.once

theorem Separate.ask (separate : s.Separate) (i : Nat) (r : Request) :
    (s.step (.ask i r)).Separate := by
  rw [step]
  split
  · exact separate
  rename_i p here
  obtain ⟨inside, rfl⟩ := List.getElem?_eq_some_iff.1 here
  have sameId := Transaction.id_after ⟨s.programs[i], r⟩
  have later := Transaction.extends_after ⟨s.programs[i], r⟩
  have new : Transaction.after ⟨s.programs[i], r⟩ ∈
      s.programs.set i (Transaction.after ⟨s.programs[i], r⟩) := List.mem_set inside _
  refine ⟨?_, ?_, ?_, ?_⟩
  · have ids : (s.programs.set i (Transaction.after ⟨s.programs[i], r⟩)).map (·.id) =
        s.programs.map (·.id) := by
      rw [List.map_set, sameId, ← List.map_set, List.set_getElem_self inside]
    exact ids ▸ separate.ids
  · intro b mem
    rcases List.mem_or_eq_of_mem_set mem with mem | rfl
    · exact separate.bound b mem
    · exact sameId ▸ separate.bound _ (List.getElem_mem inside)
  · intro t logged g makes
    rcases List.mem_append.1 logged with logged | logged
    · obtain ⟨b, mem, known⟩ := separate.known t logged g makes
      obtain ⟨j, there, rfl⟩ := List.getElem_of_mem mem
      by_cases same : i = j
      · subst same
        exact ⟨_, new, later.knows known⟩
      · refine ⟨s.programs[j], ?_, known⟩
        rw [← List.getElem_set_ne same (by simpa using there)]
        exact List.getElem_mem _
    · obtain rfl := List.mem_singleton.1 logged
      exact ⟨_, new, makes.knows.2⟩
  · intro g
    refine List.pairwise_append.2 ⟨separate.once g, List.pairwise_singleton _ _, ?_⟩
    intro t logged u logged' makes again
    obtain rfl := List.mem_singleton.1 logged'
    obtain ⟨b, mem, known⟩ := separate.known t logged g makes
    -- The handle carries the identity of the program that is asked, so that program knew it.
    have owner : b.id = s.programs[i].id := (known.id_eq again.knows.2).trans sameId
    have same := List.inj_on_of_nodup_map separate.ids mem (List.getElem_mem inside) owner
    exact again.knows.1 (same ▸ known)

theorem separate_run {steps : List Step} (alone : ∀ i, .copy i ∉ steps) :
    (run steps).Separate := by
  induction steps using List.reverseRecOn with
  | nil => exact ⟨List.nodup_nil, nofun, nofun, fun _ => .nil⟩
  | append_singleton steps c ih =>
    have separate := ih fun i mem => alone i (List.mem_append_left _ mem)
    rw [run_concat]
    cases c with
    | create => exact separate.create
    | copy i => exact absurd List.mem_concat_self (alone i)
    | ask i r => exact separate.ask i r

/-! ## What handles mean -/

namespace Accounted

variable {c : Program}

/-- Programs agree about a function whose handle was handed out for one thing only. -/
theorem get?_agree (accounted : s.Accounted) {f : FuncRef} (sole : s.Sole (.func f))
    {d e : Declaration} (seen : s.Seen b) (seen' : s.Seen c) (known : b.get? f = some d)
    (known' : c.get? f = some e) :
    Request.declare d.name d.params d.result d.linkage =
      .declare e.name e.params e.result e.linkage := by
  obtain ⟨t, logged, makes, asked⟩ := accounted.funcs b f d seen known
  obtain ⟨u, logged', makes', asked'⟩ := accounted.funcs c f e seen' known'
  rw [← asked, ← asked']
  exact sole t logged u logged' makes makes'

/-- Programs agree about the type of a parameter or a local. -/
theorem localType?_agree (accounted : s.Accounted) {l : Local}
    (sole : s.Sole (Grant.place l).source) {u v : ValueType} (seen : s.Seen b)
    (seen' : s.Seen c) (declared : b.localType? l = some u)
    (declared' : c.localType? l = some v) : u = v := by
  obtain ⟨f, _ | i⟩ := l
  · obtain ⟨d, known, declared⟩ := Option.bind_eq_some_iff.1 declared
    obtain ⟨e, known', declared'⟩ := Option.bind_eq_some_iff.1 declared'
    have same := accounted.get?_agree sole seen seen' known known'
    simp only [Request.declare.injEq] at same
    rw [Declaration.localType?, same.2.1] at declared
    exact Option.some.inj (declared.symm.trans declared')
  · obtain ⟨t, logged, makes, asked⟩ := accounted.vars b f i u seen declared
    obtain ⟨t', logged', makes', asked'⟩ := accounted.vars c f i v seen' declared'
    have same := sole t logged t' logged' makes makes'
    rw [asked, asked'] at same
    exact (Request.addLocal.inj same).2

/-- A handle that was handed out for one thing only agrees with every program. -/
theorem agreesWith (accounted : s.Accounted) {t : Transaction} {g : Grant} (logged : t ∈ s.log)
    (answer : t.answer = .ok g) (sole : s.Sole g.source) (seen : s.Seen b) : t.AgreesWith b := by
  have lasts : t.LastsTo t := .of_extends (.refl _)
  have there : s.Seen t.after := .inr ⟨t, logged, rfl⟩
  constructor
  · intro f handed
    obtain rfl : g = .func f := Except.ok.inj (answer.symm.trans handed)
    obtain ⟨_, _, _, _, d, asked, known, rfl, rfl, rfl, rfl⟩ := lasts.func f handed
    cases known' : b.get? f with
    | none => exact .inl rfl
    | some e => exact .inr ⟨e, rfl, asked.trans (accounted.get?_agree sole there seen known known')⟩
  · intro l handed
    obtain rfl : g = .place l := Except.ok.inj (answer.symm.trans handed)
    obtain ⟨u, declared, -, asked⟩ := lasts.place l handed
    refine ⟨u, declared, asked, ?_⟩
    cases declared' : b.localType? l with
    | none => exact .inl rfl
    | some v =>
      rw [accounted.localType?_agree sole there seen declared declared']
      exact .inr rfl

end Accounted

/-- Two requests whose handles agree with what the other one leads to asked for the same thing. -/
theorem request_eq_of_agreesWith {t u : Transaction} {g : Grant} (makes : t.Makes g)
    (makes' : u.Makes g) (agrees : t.AgreesWith u.after) : t.request = u.request := by
  cases g with
  | func f =>
    have lasts : u.LastsTo u := .of_extends (.refl _)
    obtain ⟨_, _, _, _, d, asked, known, rfl, rfl, rfl, rfl⟩ := lasts.func f makes'.1
    rcases agrees.func f makes.1 with unknown | ⟨e, known', asked'⟩
    · rw [known] at unknown
      cases unknown
    · obtain rfl : d = e := Option.some.inj (known.symm.trans known')
      rw [asked, asked']
  | place l =>
    obtain ⟨v, asked, -⟩ := makes.addLocal
    obtain ⟨w, asked', declared⟩ := makes'.addLocal
    obtain ⟨type, -, only, agreed⟩ := agrees.place l makes.1
    obtain rfl := only _ v asked
    rw [declared] at agreed
    rcases agreed with unknown | agreed
    · cases unknown
    · rw [asked, asked', Option.some.inj agreed]
  | done => exact absurd makes.knows.2 id

/-- Handles among any number of programs, whatever is asked of them and in whatever order.  A handle
that was handed out for one thing only means that thing to every program, at any time, or nothing:
a function has the name, the parameters, the result and the linkage that were asked for, and a local
its type.  A handle that was handed out for two things means the other one to some program.  And as
long as no program is copied, no handle is handed out for two things. -/
theorem handles_agree (steps : List Step) :
    (∀ t ∈ (run steps).log, ∀ g, t.answer = .ok g → (run steps).Sole g.source →
      ∀ b, (run steps).Seen b → t.AgreesWith b) ∧
    (∀ g, (∀ t ∈ (run steps).log, t.Makes g → ∀ b, (run steps).Seen b → t.AgreesWith b) →
      (run steps).Sole g) ∧
    ((∀ i, .copy i ∉ steps) → ∀ g, (run steps).Sole g) := by
  refine ⟨?_, ?_, ?_⟩
  · intro t logged g answer sole b seen
    exact (accounted_run steps).agreesWith logged answer sole seen
  · intro g agrees t logged u logged' makes makes'
    exact request_eq_of_agreesWith makes makes' (agrees t logged makes _ (.inr ⟨u, logged', rfl⟩))
  · intro alone g
    exact sole_of_pairwise ((separate_run alone).once g)

/-- Only one of two copies goes on declaring, and the other one rejects the local. -/
theorem handles_agree_sample :
    let steps : List Step := [.create, .ask 0 (.declare "print" [] .void (.imported "print()")),
      .copy 0, .ask 0 (.declare "run" [] .void .exported), .ask 0 (.addLocal ⟨0, 1⟩ .int32),
      .create, .ask 2 (.declare "run" [⟨.float32, "x"⟩] .void .exported)]
    ∃ t ∈ (run steps).log, t.answer = .ok (.place ⟨⟨0, 1⟩, .var 0⟩) ∧
      (∃ b ∈ (run steps).programs, b.localType? ⟨⟨0, 1⟩, .var 0⟩ = some .int32) ∧
      (∃ b ∈ (run steps).programs, b.localType? ⟨⟨0, 1⟩, .var 0⟩ = none) ∧
      ∀ b, (run steps).Seen b → t.AgreesWith b := by
  intro steps
  have once : (run steps).log.Pairwise fun t u =>
      t.Makes (.place ⟨⟨0, 1⟩, .var 0⟩) → ¬u.Makes (.place ⟨⟨0, 1⟩, .var 0⟩) := by
    decide +kernel
  have answer : (run steps).log[2].answer = .ok (.place ⟨⟨0, 1⟩, .var 0⟩) := by decide +kernel
  refine ⟨(run steps).log[2], List.getElem_mem _, answer, ?_, ?_, ?_⟩
  · exact ⟨(run steps).programs[0], List.getElem_mem _, by decide +kernel⟩
  · exact ⟨(run steps).programs[1], List.getElem_mem _, by decide +kernel⟩
  · exact (handles_agree steps).1 _ (List.getElem_mem _) _ answer (sole_of_pairwise once)

/-- A program is copied, and the copies hand out the same handle for an export and an import. -/
theorem copies_disagree :
    let steps : List Step := [.create, .copy 0,
      .ask 0 (.declare "a" [] .int32 .exported),
      .ask 1 (.declare "b" [⟨.float32, "x"⟩] .void (.imported "print(x)"))]
    ∃ t ∈ (run steps).log, ∃ b ∈ (run steps).programs, ¬t.AgreesWith b := by
  intro steps
  refine ⟨(run steps).log[0], List.getElem_mem _, (run steps).programs[1], List.getElem_mem _, ?_⟩
  intro agrees
  have other : ((run steps).programs[1].get? ⟨0, 0⟩).map (·.name) = some "b" := by decide +kernel
  rcases agrees.func ⟨0, 0⟩ (by decide +kernel) with unknown | ⟨d, known, asked⟩
  · rw [unknown] at other
    cases other
  · rw [known] at other
    have name : "a" = d.name := (Request.declare.inj asked).1
    exact absurd (name.trans (Option.some.inj other)) (by decide)

end Session

end WasmForge

import Mathlib
import WasmForge.Proofs.Emitting
import WasmForge.Proofs.InternalErrors

/-!
# Bodies in any order

A module draft is asked to add bodies, for arbitrary handles and in any order, and goes on after a
refusal.  It accepts the first body of every defined function and nothing else.  What it is finished
as depends only on these bodies, not on the order in which they came, so that compilation can be
done in stages, with the functions in any order.

* `ModuleDraft.accepted`: the additions that a draft accepts.
* `ModuleDraft.Accepts.lookup_accepted`: the first body of every defined function.
* `ModuleDraft.Bodies.toModule_congr`: drafts with the same bodies describe the same module, so that
  they are finished alike, whatever the validator.
* `Program.bodies_in_any_order`: additions in any order, and compilation in stages.
-/

namespace WasmForge

/-- Is it a function that the program defines? -/
def Program.defines (p : Program) (f : FuncRef) : Bool := (p.get? f).any (!·.isImport)

theorem Program.defines_iff {p : Program} {f : FuncRef} :
    p.defines f = true ↔ ∃ d, p.get? f = some d ∧ d.isImport = false := by
  rw [defines]
  cases p.get? f <;> simp

theorem Program.owns_of_defines {p : Program} {f : FuncRef} (defines : p.defines f = true) :
    p.owns f = true := by
  obtain ⟨d, known, -⟩ := defines_iff.1 defines
  rw [owns, known]
  rfl

/-! ## Tables -/

/-- Nothing is found for what is not listed. -/
theorem lookup_eq_none_iff_notMem {α β : Type} [DecidableEq α] {entries : List (α × β)} {a : α} :
    entries.lookup a = none ↔ a ∉ entries.map (·.1) := by
  simp only [List.lookup_eq_none_iff, bne_iff_ne, ne_eq, List.mem_map, not_exists, not_and,
    eq_comm (a := a)]

/-- What is found for a key depends on the entries with that key. -/
theorem lookup_filter {α β : Type} [DecidableEq α] (entries : List (α × β)) (a : α) :
    (entries.filter (·.1 == a)).lookup a = entries.lookup a := by
  induction entries with
  | nil => rfl
  | cons e entries ih =>
    by_cases same : a = e.1
    · subst same
      rw [List.filter_cons_of_pos (by simp), List.lookup_cons, List.lookup_cons,
        beq_self_eq_true]
    · rw [List.filter_cons_of_neg (by simpa using Ne.symm same), ih, List.lookup_cons,
        beq_false_of_ne same]

/-- What is found in a table without repetitions does not depend on its order. -/
theorem lookup_perm {α β : Type} [DecidableEq α] {entries entries' : List (α × β)}
    (perm : entries.Perm entries') (nodup : (entries.map (·.1)).Nodup) (a : α) :
    entries.lookup a = entries'.lookup a := by
  apply Option.ext
  intro b
  rw [lookup_eq_some_iff_of_nodup nodup,
    lookup_eq_some_iff_of_nodup ((perm.map _).nodup_iff.1 nodup), perm.mem_iff]

/-! ## Rows of computations -/

theorem mapM_congr_of_mem {ε α β : Type} {f g : α → Except ε β} {xs : List α}
    (same : ∀ x ∈ xs, f x = g x) : xs.mapM f = xs.mapM g := by
  induction xs with
  | nil => rfl
  | cons x xs ih =>
    rw [List.mapM_cons, List.mapM_cons, same x List.mem_cons_self,
      ih fun y mem => same y (List.mem_cons_of_mem x mem)]

/-- A row of computations succeeds when each of them does. -/
theorem mapM_eq_ok_iff_forall₂ {ε α β : Type} {f : α → Except ε β} {xs : List α} {ys : List β} :
    xs.mapM f = .ok ys ↔ List.Forall₂ (fun x y => f x = .ok y) xs ys := by
  induction xs generalizing ys with
  | nil => simp [pure, Except.pure, eq_comm]
  | cons x xs ih =>
    simp only [List.mapM_cons, bind_eq_ok, pure, Except.pure, Except.ok.injEq, ih,
      List.forall₂_cons_left_iff]
    constructor
    · rintro ⟨y, at_x, zs, rest, rfl⟩
      exact ⟨y, zs, at_x, rest, rfl⟩
    · rintro ⟨y, zs, at_x, rest, rfl⟩
      exact ⟨y, at_x, zs, rest, rfl⟩

/-- In another order, the same results come in that order. -/
theorem mapM_perm {ε α β : Type} {f : α → Except ε β} {xs xs' : List α} (perm : xs'.Perm xs)
    {ys : List β} (row : xs.mapM f = .ok ys) : ∃ ys', xs'.mapM f = .ok ys' ∧ ys'.Perm ys := by
  obtain ⟨ys', row', perm'⟩ := List.perm_comp_forall₂ perm (mapM_eq_ok_iff_forall₂.1 row)
  exact ⟨ys', mapM_eq_ok_iff_forall₂.2 row', perm'⟩

/-- Where computations stand in the order of their keys, the row fails as the failure with the least
key does. -/
theorem mapM_eq_error_of_pairwise {ε α β : Type} {f : α → Except ε β} {key : α → Nat} {xs : List α}
    (ascending : xs.Pairwise (key · < key ·)) {e : ε} :
    xs.mapM f = .error e ↔ ∃ x ∈ xs, f x = .error e ∧
      IsLeast {k | ∃ y ∈ xs, key y = k ∧ ∃ cause, f y = .error cause} (key x) := by
  rw [mapM_eq_error]
  constructor
  · rintro ⟨before, x, after, rfl, fine, failed⟩
    obtain ⟨-, tail, -⟩ := List.pairwise_append.1 ascending
    have mem : x ∈ before ++ x :: after := List.mem_append_right before List.mem_cons_self
    refine ⟨x, mem, failed, ⟨x, mem, rfl, e, failed⟩, ?_⟩
    rintro _ ⟨y, there, rfl, cause, failed'⟩
    rcases List.mem_append.1 there with there | there
    · obtain ⟨b, done⟩ := fine y there
      cases done.symm.trans failed'
    · rcases List.mem_cons.1 there with rfl | there
      · exact le_rfl
      · exact ((List.pairwise_cons.1 tail).1 y there).le
  · rintro ⟨x, mem, failed, -, least⟩
    obtain ⟨before, after, rfl⟩ := List.append_of_mem mem
    refine ⟨before, x, after, rfl, ?_, failed⟩
    intro y there
    have lt := (List.pairwise_append.1 ascending).2.2 y there x List.mem_cons_self
    cases outcome : f y with
    | ok b => exact ⟨b, rfl⟩
    | error cause =>
      have := least ⟨y, List.mem_append_left _ there, rfl, cause, outcome⟩
      omega

namespace ModuleDraft

variable {p : Program} {n : Numbering} {o : EmitOptions} {m : ModuleDraft}
  {imports defined : List Declaration} {es es' : List (FuncRef × Bytes)}

/-! ## Additions that are accepted -/

/-- The additions that a draft accepts, first to last. -/
def accepted (m : ModuleDraft) : List (FuncRef × Bytes) → List (FuncRef × Bytes)
  | [] => []
  | e :: es =>
    match m.addBody e.1 e.2 with
    | .ok m' => e :: m'.accepted es
    | .error _ => m.accepted es

/-- Adds bodies, first to last; all of them have to be accepted. -/
def addBodies (m : ModuleDraft) (es : List (FuncRef × Bytes)) : Except EmitError ModuleDraft :=
  es.foldlM (fun m e => m.addBody e.1 e.2) m

theorem attempt_of_ok {m' : ModuleDraft} {e : FuncRef × Bytes}
    (added : m.addBody e.1 e.2 = .ok m') : m.attempt e = m' := by
  rw [attempt, added]

theorem attempt_of_error {e : FuncRef × Bytes} {cause : EmitError}
    (refused : m.addBody e.1 e.2 = .error cause) : m.attempt e = m := by
  rw [attempt, refused]

theorem attempts_append (m : ModuleDraft) (es es' : List (FuncRef × Bytes)) :
    m.attempts (es ++ es') = (m.attempts es).attempts es' :=
  List.foldl_append

/-- Adding what is accepted leads to the same draft, without a refusal. -/
theorem addBodies_accepted (m : ModuleDraft) (es : List (FuncRef × Bytes)) :
    m.addBodies (m.accepted es) = .ok (m.attempts es) := by
  induction es generalizing m with
  | nil => rfl
  | cons e es ih =>
    rw [accepted]
    cases added : m.addBody e.1 e.2 with
    | ok m' =>
      rw [addBodies, List.foldlM_cons, added, attempts, List.foldl_cons, attempt_of_ok added]
      exact ih m'
    | error cause =>
      rw [attempts, List.foldl_cons, attempt_of_error added]
      exact ih m

theorem accepted_append (m : ModuleDraft) (es es' : List (FuncRef × Bytes)) :
    m.accepted (es ++ es') = m.accepted es ++ (m.attempts es).accepted es' := by
  induction es generalizing m with
  | nil => rfl
  | cons e es ih =>
    rw [List.cons_append, accepted, accepted, attempts, List.foldl_cons]
    cases added : m.addBody e.1 e.2 with
    | ok m' =>
      rw [attempt_of_ok added]
      exact congrArg (e :: ·) (ih m')
    | error cause =>
      rw [attempt_of_error added]
      exact ih m

theorem bodies_attempts (m : ModuleDraft) (es : List (FuncRef × Bytes)) :
    Bodies m (m.attempts es) fun f => (m.accepted es).lookup f :=
  bodies_foldlM (addBodies_accepted m es)

section

variable (accepts : Accepts p n o imports defined) (complete : n.Complete)

include accepts complete

theorem Accepts.exists_indexOf? {f : FuncRef} (defines : p.defines f = true) :
    ∃ i, n.indexOf? f = some i := by
  have mem : f ∈ n.refs :=
    (accepts.perm_refs complete).mem_iff.2 (Program.mem_refs.2 (Program.owns_of_defines defines))
  obtain ⟨i, here⟩ := List.mem_iff_getElem?.1 mem
  exact ⟨i, complete.indexOf?_eq_some.2 here⟩

/-- A body is added exactly for a defined function without one. -/
theorem Accepts.exists_addBody {added : FuncRef → Option Bytes}
    (row : Bodies ⟨p, n, o, []⟩ m added) {f : FuncRef} {body : Bytes} :
    (∃ m', m.addBody f body = .ok m') ↔ p.defines f = true ∧ added f = none := by
  have body_of : ∀ i, n.indexOf? f = some i → m.bodies.lookup i = added f := row.bodies f
  simp only [addBody_eq_ok, row.numbering, row.program]
  constructor
  · rintro ⟨m', i, d, index, known, other, fresh, -⟩
    exact ⟨Program.defines_iff.2 ⟨d, known, other⟩, body_of i index ▸ fresh⟩
  · rintro ⟨defines, fresh⟩
    obtain ⟨i, index⟩ := accepts.exists_indexOf? complete defines
    obtain ⟨d, known, other⟩ := Program.defines_iff.1 defines
    exact ⟨_, i, d, index, known, other, (body_of i index).trans fresh, rfl⟩

/-- One more addition is accepted exactly for a defined function without a body. -/
theorem Accepts.accepted_concat (e : FuncRef × Bytes) :
    accepted ⟨p, n, o, []⟩ (es ++ [e]) =
      accepted ⟨p, n, o, []⟩ es ++
        if p.defines e.1 = true ∧ (accepted ⟨p, n, o, []⟩ es).lookup e.1 = none then [e]
        else [] := by
  have step : (∃ m', (attempts ⟨p, n, o, []⟩ es).addBody e.1 e.2 = .ok m') ↔
      p.defines e.1 = true ∧ (accepted ⟨p, n, o, []⟩ es).lookup e.1 = none :=
    accepts.exists_addBody complete (bodies_attempts ⟨p, n, o, []⟩ es)
  rw [accepted_append, accepted]
  cases added : (attempts ⟨p, n, o, []⟩ es).addBody e.1 e.2 with
  | ok m' =>
    rw [if_pos (step.1 ⟨m', added⟩)]
    rfl
  | error cause =>
    rw [if_neg]
    · rfl
    · intro fits
      obtain ⟨m', other⟩ := step.2 fits
      rw [other] at added
      cases added

/-- The first body of every defined function is accepted. -/
theorem Accepts.lookup_accepted (es : List (FuncRef × Bytes)) (f : FuncRef) :
    (accepted ⟨p, n, o, []⟩ es).lookup f = if p.defines f = true then es.lookup f else none := by
  induction es using List.reverseRecOn with
  | nil => simp [accepted]
  | append_singleton es e ih =>
    rw [accepts.accepted_concat complete, List.lookup_append, List.lookup_append, ih]
    by_cases same : f = e.1
    · -- if an earlier body was asked for, it was accepted, and this one is refused
      subst same
      rw [ih]
      cases defines : p.defines e.1 with
      | false => simp
      | true => cases found : es.lookup e.1 <;> simp
    · have other : [e].lookup f = none := by simpa using same
      have still : ∀ c : Prop, [Decidable c] → (if c then [e] else []).lookup f = none := by
        intro c _
        split
        · exact other
        · rfl
      rw [still, other, Option.or_none, Option.or_none]

/-- Bodies of different defined functions are all accepted. -/
theorem Accepts.accepted_eq_self (defines : ∀ e ∈ es, p.defines e.1 = true)
    (nodup : (es.map (·.1)).Nodup) : accepted ⟨p, n, o, []⟩ es = es := by
  induction es using List.reverseRecOn with
  | nil => rfl
  | append_singleton es e ih =>
    rw [List.map_append, List.nodup_append] at nodup
    have before := ih (fun e mem => defines e (List.mem_append_left _ mem)) nodup.1
    have fresh : es.lookup e.1 = none :=
      lookup_eq_none_iff_notMem.2 fun mem => nodup.2.2 e.1 mem e.1 (by simp) rfl
    rw [accepts.accepted_concat complete, before, if_pos ⟨defines e (by simp), fresh⟩]

end

/-! ## Finishing -/

/-- The module that a draft describes depends on its bodies at the indices of its functions. -/
theorem toModule_eq_of_lookup {m' : ModuleDraft} (program : m.program = m'.program)
    (numbering : m.numbering = m'.numbering) (options : m.options = m'.options)
    (same : ∀ i < m.numbering.size, m.bodies.lookup i = m'.bodies.lookup i) :
    m.toModule = m'.toModule := by
  have indexed : m.indexed = m'.indexed := by rw [indexed, indexed, program, numbering]
  rw [toModule, toModule, ← indexed, options]
  cases listed : m.indexed with
  | error cause => rfl
  | ok entries =>
    obtain ⟨ds, refs, rfl⟩ := indexed_eq_ok.1 listed
    have inside : ∀ e ∈ ModuleDraft.defined ((List.range ds.length).zip ds),
        m.bodyOf e = m'.bodyOf e := by
      intro e mem
      have lt := List.mem_range.1 (List.of_mem_zip (List.mem_of_mem_filter mem)).1
      have size : ds.length = m.numbering.size := by
        rw [← m.numbering.length_refs]
        simpa using (congrArg List.length refs).symm
      rw [bodyOf, bodyOf, same e.1 (size ▸ lt)]
    show List.mapM m.bodyOf _ >>= _ = List.mapM m'.bodyOf _ >>= _
    rw [mapM_congr_of_mem inside]

/-- Drafts with the same bodies describe the same module. -/
theorem Bodies.toModule_congr {first last last' : ModuleDraft}
    {added added' : FuncRef → Option Bytes} (complete : first.numbering.Complete)
    (row : Bodies first last added) (row' : Bodies first last' added')
    (same : ∀ f, added f = added' f) : last.toModule = last'.toModule := by
  refine toModule_eq_of_lookup (row.program.trans row'.program.symm)
    (row.numbering.trans row'.numbering.symm) (row.options.trans row'.options.symm) ?_
  intro i lt
  rw [row.numbering, ← Numbering.length_refs] at lt
  have index := complete.indexOf?_eq_some.2 (List.getElem?_eq_getElem lt)
  rw [row.bodies _ i index, row'.bodies _ i index, same]

/-- Drafts that describe the same module are finished alike, whatever the validator. -/
theorem finishWith_congr {m' : ModuleDraft} (same : m.toModule = m'.toModule)
    (valid : Bytes → Bool) : m.finishWith valid = m'.finishWith valid := by
  rw [finishWith, finishWith, same]

/-- The indices of the defined functions that have no body. -/
def lacking (p : Program) (n : Numbering) (added : FuncRef → Option Bytes) : Set Nat :=
  {i | ∃ f, n.indexOf f = .ok i ∧ p.defines f = true ∧ added f = none}

theorem bodyOf_eq_error {entry : Nat × Declaration} {e : EmitError} :
    m.bodyOf entry = .error e ↔
      m.bodies.lookup entry.1 = none ∧ e = .lowering (.noBody entry.2.name) := by
  unfold bodyOf
  cases m.bodies.lookup entry.1 <;> simp [eq_comm]

/-- The defined functions stand in the order of their indices. -/
theorem pairwise_defined (ds : List Declaration) :
    (ModuleDraft.defined ((List.range ds.length).zip ds)).Pairwise (·.1 < ·.1) := by
  refine List.Pairwise.filter _ (List.pairwise_map.1 ?_)
  rw [List.map_fst_zip (by simp)]
  exact List.pairwise_lt_range

/-- A defined function is listed at its index. -/
theorem mem_defined {ds : List Declaration} (refs : n.refs.map p.get? = ds.map some) {i : Nat}
    {d : Declaration} :
    (i, d) ∈ ModuleDraft.defined ((List.range ds.length).zip ds) ↔
      ∃ f, n.refs[i]? = some f ∧ p.get? f = some d ∧ d.isImport = false := by
  have listed : ds[i]? = some d ↔ ∃ f, n.refs[i]? = some f ∧ p.get? f = some d := by
    have at_i := congrArg (·[i]?) refs
    simp only [List.getElem?_map] at at_i
    cases here : n.refs[i]? <;> cases there : ds[i]? <;> simp_all
  rw [ModuleDraft.defined, List.mem_filter, mem_zip_range, listed, Bool.not_eq_true',
    ← exists_and_right]
  simp only [and_assoc]

section

variable {added : FuncRef → Option Bytes} (accepts : Accepts p n o imports defined)
  (complete : n.Complete) (row : Bodies ⟨p, n, o, []⟩ m added)

include accepts row

/-- Want of a body is found when the bodies are collected. -/
theorem Accepts.finishWith_eq_noBody_iff_mapM {valid : Bytes → Bool} {name : String} :
    m.finishWith valid = .error (.lowering (.noBody name)) ↔
      (ModuleDraft.defined ((List.range (imports ++ defined).length).zip
        (imports ++ defined))).mapM m.bodyOf = .error (.lowering (.noBody name)) := by
  have indexed : m.indexed = .ok ((List.range (imports ++ defined).length).zip
      (imports ++ defined)) := by
    refine indexed_eq_ok.2 ⟨imports ++ defined, ?_, rfl⟩
    rw [row.program, row.numbering]
    exact accepts.refs
  obtain ⟨make, made⟩ : ∃ make : List Bytes → Module Bytes, m.toModule =
      (ModuleDraft.defined ((List.range (imports ++ defined).length).zip
        (imports ++ defined))).mapM m.bodyOf >>= fun code => .ok (make code) := by
    rw [toModule, indexed]
    exact ⟨_, rfl⟩
  rw [finishWith, made, bind_eq_error, bind_eq_error]
  constructor
  · rintro ((failed | ⟨code, -, ⟨⟩⟩) | ⟨mod, -, failed⟩)
    · exact failed
    · dsimp only at failed
      split at failed <;> cases failed
  · intro failed
    exact .inl (.inl failed)

include complete

theorem Accepts.lacking_eq :
    {k | ∃ e ∈ ModuleDraft.defined ((List.range (imports ++ defined).length).zip
      (imports ++ defined)), e.1 = k ∧ ∃ cause, m.bodyOf e = .error cause} =
      lacking p n added := by
  ext k
  constructor
  · rintro ⟨⟨i, d⟩, mem, rfl, cause, failed⟩
    obtain ⟨f, here, known, other⟩ := (mem_defined accepts.refs).1 mem
    have index := complete.indexOf?_eq_some.2 here
    refine ⟨f, Numbering.indexOf_eq_ok.2 index, Program.defines_iff.2 ⟨d, known, other⟩, ?_⟩
    exact (row.bodies f i index).symm.trans (bodyOf_eq_error.1 failed).1
  · rintro ⟨f, at_f, defines, missing⟩
    obtain ⟨d, known, other⟩ := Program.defines_iff.1 defines
    have index := Numbering.indexOf_eq_ok.1 at_f
    refine ⟨(k, d), ?_, rfl, _, bodyOf_eq_error.2 ⟨(row.bodies f k index).trans missing, rfl⟩⟩
    exact (mem_defined accepts.refs).2 ⟨f, complete.indexOf?_eq_some.1 index, known, other⟩

/-- A draft fails for want of a body as the lowest function without one. -/
theorem Accepts.finishWith_eq_noBody {valid : Bytes → Bool} {name : String} :
    m.finishWith valid = .error (.lowering (.noBody name)) ↔
      ∃ f d i, p.get? f = some d ∧ d.name = name ∧ n.indexOf f = .ok i ∧
        IsLeast (lacking p n added) i := by
  have index : ∀ {i f}, n.indexOf f = .ok i ↔ n.refs[i]? = some f := by
    intro i f
    rw [Numbering.indexOf_eq_ok, complete.indexOf?_eq_some]
  rw [accepts.finishWith_eq_noBody_iff_mapM row,
    mapM_eq_error_of_pairwise (pairwise_defined (imports ++ defined)),
    accepts.lacking_eq complete row]
  constructor
  · rintro ⟨⟨i, d⟩, mem, failed, least⟩
    obtain ⟨f, here, known, -⟩ := (mem_defined accepts.refs).1 mem
    cases (bodyOf_eq_error.1 failed).2
    exact ⟨f, d, i, known, rfl, index.2 here, least⟩
  · rintro ⟨f, d, i, known, rfl, at_f, least⟩
    obtain ⟨g, at_g, defines, missing⟩ := least.1
    obtain rfl : f = g := Option.some.inj ((index.1 at_f).symm.trans (index.1 at_g))
    obtain ⟨e, known', other⟩ := Program.defines_iff.1 defines
    cases known.symm.trans known'
    have none : m.bodies.lookup i = none :=
      (row.bodies f i (Numbering.indexOf_eq_ok.1 at_f)).trans missing
    exact ⟨(i, d), (mem_defined accepts.refs).2 ⟨f, index.1 at_f, known, other⟩,
      bodyOf_eq_error.2 ⟨none, rfl⟩, least⟩

end

/-! ## Additions in any order -/

/-- Bodies may be added to the draft in any order.  They are arbitrary bytes, so nothing is assumed
about the validator that the module has to pass in the end. -/
structure OrderFree (first : ModuleDraft) : Prop where
  /-- A body is added exactly for a defined function that has had none. -/
  adds : ∀ es f body, (∃ m, (first.attempts es).addBody f body = .ok m) ↔
    first.program.defines f = true ∧ (first.accepted es).lookup f = none
  /-- The result depends on the accepted body of every function, and on nothing else. -/
  finish : ∀ es es', (∀ f, (first.accepted es).lookup f = (first.accepted es').lookup f) →
    (first.attempts es).toModule = (first.attempts es').toModule ∧
      ∀ valid, (first.attempts es).finishWith valid = (first.attempts es').finishWith valid
  /-- Additions for different functions can change places. -/
  reordered : ∀ es es', (∀ f, es.filter (·.1 == f) = es'.filter (·.1 == f)) →
    (first.attempts es).toModule = (first.attempts es').toModule ∧
      ∀ valid, (first.attempts es).finishWith valid = (first.attempts es').finishWith valid
  /-- An addition that is refused can be left out. -/
  refused : ∀ es e es' cause, (first.attempts es).addBody e.1 e.2 = .error cause →
    first.attempts (es ++ e :: es') = first.attempts (es ++ es')
  /-- A missing body is reported exactly when a defined function has none. -/
  missing : ∀ es valid,
    (∃ name, (first.attempts es).finishWith valid = .error (.lowering (.noBody name))) ↔
      ∃ f, first.program.defines f = true ∧ (first.accepted es).lookup f = none
  /-- The function that is named has the lowest index of those without a body. -/
  lowest : ∀ es valid name,
    (first.attempts es).finishWith valid = .error (.lowering (.noBody name)) →
      ∃ f d i, first.program.get? f = some d ∧ d.name = name ∧ first.numbering.indexOf f = .ok i ∧
        IsLeast (lacking first.program first.numbering fun f => (first.accepted es).lookup f) i

theorem Accepts.orderFree (accepts : Accepts p n o imports defined) (complete : n.Complete) :
    OrderFree ⟨p, n, o, []⟩ where
  adds es _ _ := accepts.exists_addBody complete (bodies_attempts _ es)
  finish es es' same := by
    have made := (bodies_attempts _ es).toModule_congr complete (bodies_attempts _ es') same
    exact ⟨made, finishWith_congr made⟩
  reordered es es' same := by
    have made := (bodies_attempts _ es).toModule_congr complete (bodies_attempts _ es') fun f => by
      rw [accepts.lookup_accepted complete, accepts.lookup_accepted complete, ← lookup_filter es,
        same, lookup_filter]
    exact ⟨made, finishWith_congr made⟩
  refused es e es' cause refused := by
    rw [attempts_append, attempts_append, attempts, List.foldl_cons, attempt_of_error refused,
      ← attempts]
  missing es valid := by
    simp only [accepts.finishWith_eq_noBody complete (bodies_attempts _ es)]
    constructor
    · rintro ⟨name, -, -, i, -, -, -, ⟨f, -, lacks⟩, -⟩
      exact ⟨f, lacks⟩
    · rintro ⟨f, defines, missing⟩
      obtain ⟨k, index⟩ := accepts.exists_indexOf? complete defines
      have some : (lacking p n fun f => (accepted ⟨p, n, o, []⟩ es).lookup f).Nonempty :=
        ⟨k, f, Numbering.indexOf_eq_ok.2 index, defines, missing⟩
      obtain ⟨g, at_g, lacks⟩ := Nat.sInf_mem some
      obtain ⟨d, known, -⟩ := Program.defines_iff.1 lacks.1
      exact ⟨d.name, g, d, _, known, rfl, at_g, ⟨g, at_g, lacks⟩, fun i => Nat.sInf_le⟩
  lowest es _ _ failed := (accepts.finishWith_eq_noBody complete (bodies_attempts _ es)).1 failed

end ModuleDraft

/-! ## Compilation in stages -/

namespace Program

open ModuleDraft

variable {p : Program} {n : Numbering} {o : EmitOptions}

/-- Lowers a function. -/
def lowered (p : Program) (n : Numbering) (f : FuncRef) : Except EmitError (FuncRef × Bytes) := do
  let d ← declaration p f
  return (f, ← p.lower f d n)

theorem lowered_eq_ok {f : FuncRef} {e : FuncRef × Bytes} :
    p.lowered n f = .ok e ↔ e.1 = f ∧ ∃ d, p.get? f = some d ∧ p.lower f d n = .ok e.2 := by
  simp only [lowered, bind_eq_ok, declaration_eq_ok, pure, Except.pure, Except.ok.injEq]
  constructor
  · rintro ⟨d, known, body, lowered, rfl⟩
    exact ⟨rfl, d, known, lowered⟩
  · rintro ⟨rfl, d, known, lowered⟩
    exact ⟨d, known, e.2, lowered, rfl⟩

theorem map_fst_lowered {fs : List FuncRef} {es : List (FuncRef × Bytes)}
    (row : fs.mapM (p.lowered n) = .ok es) : es.map (·.1) = fs := by
  have each : List.Forall₂ (fun f e => f = e.1) fs es :=
    (mapM_eq_ok_iff_forall₂.1 row).imp fun f e lowered => (lowered_eq_ok.1 lowered).1.symm
  rw [← List.forall₂_map_right_iff (R := Eq), List.forall₂_eq_eq_eq] at each
  exact each.symm

theorem addLowered_of_not_defines {m : ModuleDraft} {f : FuncRef} (none : p.defines f = false) :
    p.addLowered m f = .ok m := by
  rw [addLowered]
  cases known : p.get? f with
  | none => rfl
  | some d =>
    have imported : d.isImport = true := by simpa [defines, known] using none
    exact if_pos imported

/-- Lowering and adding function by function is lowering all and then adding all. -/
theorem foldlM_addLowered {fs : List FuncRef} {first last : ModuleDraft}
    (row : fs.foldlM p.addLowered first = .ok last) :
    ∃ es, (fs.filter p.defines).mapM (p.lowered first.numbering) = .ok es ∧
      first.addBodies es = .ok last := by
  induction fs generalizing first with
  | nil => exact ⟨[], rfl, row⟩
  | cons f fs ih =>
    rw [List.foldlM_cons, bind_eq_ok] at row
    obtain ⟨next, head, tail⟩ := row
    cases defines : p.defines f with
    | false =>
      rw [addLowered_of_not_defines defines] at head
      cases head
      rw [List.filter_cons_of_neg (by simp [defines])]
      exact ih tail
    | true =>
      obtain ⟨d, known, other⟩ := defines_iff.1 defines
      simp only [addLowered, known, other, Bool.false_eq_true, if_false] at head
      obtain ⟨body, lowered, added⟩ := bind_eq_ok.1 head
      obtain ⟨es, rest, row⟩ := ih tail
      have numbering : next.numbering = first.numbering := by
        obtain ⟨_, _, -, -, -, -, rfl⟩ := addBody_eq_ok.1 added
        rfl
      rw [numbering] at rest
      refine ⟨(f, body) :: es, ?_, ?_⟩
      · rw [List.filter_cons_of_pos defines, mapM_eq_ok_iff_forall₂]
        exact .cons (lowered_eq_ok.2 ⟨rfl, d, known, lowered⟩) (mapM_eq_ok_iff_forall₂.1 rest)
      · rw [addBodies, List.foldlM_cons, bind_eq_ok]
        exact ⟨next, added, row⟩

/-- The program can be compiled in stages: number the functions, lower the defined ones in any
order, add their bodies in any order, and finish. -/
def Staged (p : Program) (o : EmitOptions) (bs : Bytes) : Prop :=
  ∃ n first, p.number = .ok n ∧ start p n o = .ok first ∧
    ∀ fs : List FuncRef, fs.Perm (p.refs.filter p.defines) →
      ∃ es, fs.mapM (p.lowered n) = .ok es ∧
        ∀ es' : List (FuncRef × Bytes), es'.Perm es →
          ∃ last, first.addBodies es' = .ok last ∧ last.finish = .ok bs

theorem staged_of_compile {bs : Bytes} (compiled : p.compile o = .ok bs) : p.Staged o bs := by
  obtain ⟨-, n, first, last, number, started, row, finished⟩ := compile_eq_ok.1 compiled
  have complete := (drawn_of_number number).complete
  obtain ⟨⟨imports, defined, accepts⟩, rfl⟩ := start_eq_ok.1 started
  obtain ⟨es, lowered, added⟩ := foldlM_addLowered row
  refine ⟨n, _, number, started, fun fs perm => ?_⟩
  have reordered := perm.trans ((accepts.perm_refs complete).filter p.defines).symm
  -- `es` is the row of bodies that compilation adds, `es'` the one in the order of lowering and
  -- `es''` the one in the order of addition
  obtain ⟨es', lowered', same⟩ := mapM_perm reordered lowered
  refine ⟨es', lowered', fun es'' again => ?_⟩
  have perm'' : es''.Perm es := again.trans same
  have keys : (es''.map (·.1)).Perm (n.refs.filter p.defines) :=
    map_fst_lowered lowered ▸ perm''.map _
  have nodup : (es''.map (·.1)).Nodup := keys.nodup_iff.2 (complete.nodup_refs.filter _)
  have defines : ∀ e ∈ es'', p.defines e.1 = true :=
    fun e mem => List.of_mem_filter (keys.mem_iff.1 (List.mem_map_of_mem mem))
  have all := accepts.accepted_eq_self complete defines nodup
  refine ⟨attempts ⟨p, n, o, []⟩ es'', ?_, ?_⟩
  · have row := addBodies_accepted ⟨p, n, o, []⟩ es''
    rwa [all] at row
  · rw [← finished]
    refine finishWith_congr ?_ _
    refine (bodies_attempts _ es'').toModule_congr complete (bodies_foldlM added) fun f => ?_
    rw [all, lookup_perm perm'' nodup]

/-- Bodies can be added to a module draft in any order and with any refusals in between, and a
program can be compiled in stages, with its functions in any order. -/
theorem bodies_in_any_order (p : Program) (o : EmitOptions) :
    (∀ q n first, n.Drawn q → start p n o = .ok first → first.OrderFree) ∧
      ∀ bs, p.compile o = .ok bs → p.Staged o bs := by
  refine ⟨?_, fun bs => staged_of_compile⟩
  intro q n first drawn started
  obtain ⟨⟨imports, defined, accepts⟩, rfl⟩ := start_eq_ok.1 started
  exact accepts.orderFree drawn.complete

/-- With another than the usual numbering, and in stages.  The bodies that are added in two orders
are a subtraction, which no program is lowered to; a validator that knows it accepts the module. -/
theorem bodies_in_any_order_sample :
    (Numbering.sample.Drawn sample ∧
      ∃ first, start sample .sample ⟨some ⟨1, some 2⟩⟩ = .ok first ∧ first.OrderFree ∧
        (let subtraction : Bytes := [7, 0, 0x20, 0, 0x20, 0, 0x6B, 0x0B]
         ∃ bs, ∀ valid : Bytes → Bool, valid bs = true →
           (first.attempts [(⟨7, 0⟩, subtraction), (⟨7, 2⟩, subtraction)]).finishWith valid =
             .ok bs ∧
           (first.attempts [(⟨7, 2⟩, subtraction), (⟨7, 0⟩, subtraction)]).finishWith valid =
             .ok bs)) ∧
    ∃ bs, sample.compile ⟨some ⟨1, some 2⟩⟩ = .ok bs ∧ sample.Staged ⟨some ⟨1, some 2⟩⟩ bs := by
  obtain ⟨additions, stages⟩ := bodies_in_any_order sample ⟨some ⟨1, some 2⟩⟩
  refine ⟨⟨Numbering.drawn_sample, ?_⟩, ?_⟩
  · obtain ⟨first, started⟩ : ∃ first, start sample .sample ⟨some ⟨1, some 2⟩⟩ = .ok first :=
      exists_eq_ok_of_toBool (by decide +kernel)
    have free := additions _ _ _ Numbering.drawn_sample started
    refine ⟨first, started, free, ?_⟩
    intro subtraction
    have swapped := free.reordered [(⟨7, 0⟩, subtraction), (⟨7, 2⟩, subtraction)]
      [(⟨7, 2⟩, subtraction), (⟨7, 0⟩, subtraction)] fun f => by
        by_cases run : f = ⟨7, 0⟩
        · subst run
          rfl
        · by_cases twice : f = ⟨7, 2⟩
          · subst twice
            rfl
          · simp [Ne.symm run, Ne.symm twice]
    obtain ⟨-, rfl⟩ := start_eq_ok.1 started
    obtain ⟨mod, made⟩ : ∃ mod, toModule (attempts ⟨sample, .sample, ⟨some ⟨1, some 2⟩⟩, []⟩
        [(⟨7, 0⟩, subtraction), (⟨7, 2⟩, subtraction)]) = .ok mod :=
      exists_eq_ok_of_toBool (by decide +kernel)
    refine ⟨mod.encode, fun valid passes => ?_⟩
    rw [← swapped.2 valid, and_self, finishWith, made]
    exact if_pos passes
  · obtain ⟨bs, compiled⟩ : ∃ bs, sample.compile ⟨some ⟨1, some 2⟩⟩ = .ok bs :=
      exists_eq_ok_of_toBool (by decide +kernel)
    exact ⟨bs, compiled, stages bs compiled⟩

end Program

end WasmForge

import Mathlib
import WasmForge.Proofs.Numbering

/-!
# Every row of requests

A draft is asked for indices for arbitrary handles, in any order and as often as one likes, and goes
on after a refusal.  The indices that it gives out are counted up from zero, a handle is refused
exactly when it is foreign or has an index, and where the draft ends, handles and indices are in
bijection.

A draft looks an index up in the row of the numbered positions.  A ledger keeps a table of indices
beside the row of handles: the two are inverse to each other throughout, and a ledger answers every
row of requests as a draft does.

* `Numbering.Log.Tracks`: what a log of requests says about the draft that answered them.
* `Numbering.Draft.ask_ledger`: a step of a ledger is a step of a draft.
* `Program.requests_number`: what every row of requests leads to.
-/

namespace WasmForge

theorem idxOf?_push (xs : Array Nat) (i j : Nat) :
    (xs.push i).idxOf? j = (xs.idxOf? j).or (if i = j then some xs.size else none) := by
  rw [← Array.idxOf?_toList, ← Array.idxOf?_toList, Array.toList_push, List.idxOf?,
    List.findIdx?_append, ← List.idxOf?]
  by_cases same : i = j <;> simp [same]

theorem isNone_idxOf? (xs : Array Nat) (i : Nat) : (xs.idxOf? i).isNone = !xs.contains i := by
  rw [← Option.not_isSome, Bool.not_inj_iff, Bool.eq_iff_iff, Array.isSome_idxOf?,
    Array.contains_iff_mem]

theorem findIdx?_range (n : Nat) (test : Nat → Bool) :
    (List.range n).findIdx? test = (List.range n).find? test := by
  apply Option.ext
  intro i
  rw [List.findIdx?_eq_some_iff_getElem, List.find?_range_eq_some]
  simp

theorem idxOf?_of_mem {xs : Array Nat} {i : Nat} (mem : i ∈ xs) :
    xs.idxOf? i = some (xs.toList.idxOf i) := by
  rw [← Array.idxOf?_toList]
  exact List.findIdx?_eq_some_of_exists ⟨i, Array.mem_toList_iff.2 mem, beq_self_eq_true i⟩

namespace Numbering

/-- Requests for indices, with their answers. -/
abbrev Log := List (FuncRef × Except NumberingError Nat)

namespace Log

/-- The handle and the index of a request that was granted. -/
def granted : FuncRef × Except NumberingError Nat → Option (FuncRef × Nat)
  | (f, .ok k) => some (f, k)
  | (_, .error _) => none

theorem granted_eq_some {entry : FuncRef × Except NumberingError Nat} {f : FuncRef} {k : Nat} :
    granted entry = some (f, k) ↔ entry = (f, .ok k) := by
  obtain ⟨g, answer⟩ := entry
  cases answer <;> simp [granted]

theorem mem_granted {log : Log} {f : FuncRef} {k : Nat} :
    (f, k) ∈ log.filterMap granted ↔ (f, .ok k) ∈ log := by
  simp only [List.mem_filterMap, granted_eq_some, exists_eq_right]

theorem filterMap_granted_ok (log : Log) (f : FuncRef) (k : Nat) :
    (log ++ [(f, Except.ok k)]).filterMap granted = log.filterMap granted ++ [(f, k)] := by
  rw [List.filterMap_append]
  rfl

theorem filterMap_granted_error (log : Log) (f : FuncRef) (cause : NumberingError) :
    (log ++ [(f, Except.error cause)]).filterMap granted = log.filterMap granted := by
  rw [List.filterMap_append]
  exact List.append_nil _

variable {σ τ : Type}

/-- Answers requests one after the other and keeps a log of them. -/
def serve (ask : σ → FuncRef → σ × Except NumberingError Nat) (start : σ) (fs : List FuncRef) :
    σ × Log :=
  fs.foldl (fun now f => ((ask now.1 f).1, now.2 ++ [(f, (ask now.1 f).2)])) (start, [])

theorem serve_concat (ask : σ → FuncRef → σ × Except NumberingError Nat) (start : σ)
    (fs : List FuncRef) (f : FuncRef) :
    serve ask start (fs ++ [f]) =
      ((ask (serve ask start fs).1 f).1,
        (serve ask start fs).2 ++ [(f, (ask (serve ask start fs).1 f).2)]) := by
  simp only [serve, List.foldl_append, List.foldl_cons, List.foldl_nil]

theorem map_fst_serve (ask : σ → FuncRef → σ × Except NumberingError Nat) (start : σ)
    (fs : List FuncRef) : (serve ask start fs).2.map (·.1) = fs := by
  induction fs using List.reverseRecOn with
  | nil => rfl
  | append_singleton fs f ih => rw [serve_concat, List.map_append, ih, List.map_singleton]

/-- If one step is another under a view of the states, then so is every row of steps. -/
theorem serve_view {ask : σ → FuncRef → σ × Except NumberingError Nat}
    {ask' : τ → FuncRef → τ × Except NumberingError Nat} {view : σ → τ}
    (step : ∀ s f, ask' (view s) f = (view (ask s f).1, (ask s f).2)) (start : σ)
    (fs : List FuncRef) :
    serve ask' (view start) fs = (view (serve ask start fs).1, (serve ask start fs).2) := by
  induction fs using List.reverseRecOn with
  | nil => rfl
  | append_singleton fs f ih => rw [serve_concat, serve_concat, ih, step]

end Log

namespace Draft

variable {p : Program} {d : Draft} {f : FuncRef}

/-- Asks for the next free index.  A request that is refused leaves the draft as it is. -/
def ask (d : Draft) (f : FuncRef) : Draft × Except NumberingError Nat :=
  match d.assign f with
  | .ok (e, i) => (e, .ok i)
  | .error cause => (d, .error cause)

theorem ask_foreign (foreign : d.covers f = false) :
    d.ask f = (d, .error (.notRegistered f.index)) := by
  simp [ask, assign, foreign]

theorem ask_repeated {k : Nat} (covered : d.covers f = true)
    (found : d.order.idxOf? f.index = some k) :
    d.ask f = (d, .error (.alreadyResolved f.index k)) := by
  simp [ask, assign, covered, found]

theorem ask_fresh (covered : d.covers f = true) (fresh : d.order.idxOf? f.index = none) :
    d.ask f = ({ d with order := d.order.push f.index }, .ok d.order.size) := by
  simp [ask, assign, covered, fresh]

end Draft

/-! ## What a log says -/

namespace Log

/-- The log of a draft for `p` shows the positions that have indices, in the order of the
indices. -/
structure Tracks (p : Program) (log : Log) (d : Draft) : Prop extends d.Sound p where
  /-- Granted requests, first to last. -/
  grants : log.filterMap granted = d.order.toList.zipIdx.map fun e => (p.ref e.1, e.2)

namespace Tracks

variable {p : Program} {log : Log} {d : Draft} {f : FuncRef}

theorem start (p : Program) : Tracks p [] (.ofProgram p) :=
  ⟨Draft.Drawn.start.sound, rfl⟩

theorem covers (tracks : Tracks p log d) (f : FuncRef) : d.covers f = p.owns f := by
  rw [Bool.eq_iff_iff, Draft.covers_iff, Program.owns_iff, tracks.program, tracks.size]

/-- One more request. -/
theorem ask (tracks : Tracks p log d) (f : FuncRef) :
    Tracks p (log ++ [(f, (d.ask f).2)]) (d.ask f).1 := by
  -- a refusal changes neither the draft nor the list of granted requests
  have refused : ∀ cause, d.ask f = (d, .error cause) →
      Tracks p (log ++ [(f, (d.ask f).2)]) (d.ask f).1 := by
    intro cause same
    rw [same]
    refine ⟨tracks.toSound, ?_⟩
    rw [filterMap_granted_error, tracks.grants]
  cases covered : d.covers f with
  | false => exact refused _ (Draft.ask_foreign covered)
  | true =>
    cases found : d.order.idxOf? f.index with
    | some k => exact refused _ (Draft.ask_repeated covered found)
    | none =>
      have own : p.ref f.index = f := by
        rw [Program.ref, ← tracks.program, ← (Draft.covers_iff.1 covered).1]
      have done := Draft.assign_eq_ok.2 ⟨covered, Array.idxOf?_eq_none_iff.1 found, rfl, rfl⟩
      rw [Draft.ask_fresh covered found]
      refine ⟨tracks.toSound.assign done, ?_⟩
      rw [filterMap_granted_ok, tracks.grants]
      simp [List.zipIdx_append, own]

theorem serve (p : Program) (fs : List FuncRef) :
    Tracks p (serve Draft.ask (.ofProgram p) fs).2 (serve Draft.ask (.ofProgram p) fs).1 := by
  induction fs using List.reverseRecOn with
  | nil => exact start p
  | append_singleton fs f ih =>
    rw [serve_concat]
    exact ih.ask f

/-- A request for a handle was granted exactly when its position stands at the index. -/
theorem mem_log (tracks : Tracks p log d) {k : Nat} :
    (f, .ok k) ∈ log ↔ f.program = p.id ∧ d.order.toList[k]? = some f.index := by
  rw [← mem_granted, tracks.grants, List.mem_map]
  constructor
  · rintro ⟨⟨i, j⟩, here, same⟩
    obtain ⟨rfl, rfl⟩ := Prod.mk.inj same
    exact ⟨rfl, List.mk_mem_zipIdx_iff_getElem?.1 here⟩
  · rintro ⟨own, here⟩
    refine ⟨(f.index, k), List.mk_mem_zipIdx_iff_getElem?.2 here, ?_⟩
    show ((⟨p.id, f.index⟩, k) : FuncRef × Nat) = (f, k)
    rw [← own]

/-- The index that a handle was given is where its position stands. -/
theorem idxOf?_eq_some (tracks : Tracks p log d) (own : f.program = p.id) {k : Nat} :
    d.order.idxOf? f.index = some k ↔ (f, .ok k) ∈ log := by
  rw [tracks.mem_log, ← Array.idxOf?_toList, idxOf?_eq_some_iff_of_nodup tracks.nodup,
    and_iff_right own]

theorem mem_order (tracks : Tracks p log d) (own : f.program = p.id) :
    f.index ∈ d.order ↔ ∃ k, (f, .ok k) ∈ log := by
  rw [← Array.isSome_idxOf?, Option.isSome_iff_exists]
  exact exists_congr fun k => tracks.idxOf?_eq_some own

/-- The indices that were given out. -/
theorem indices (tracks : Tracks p log d) :
    (log.filterMap granted).map (·.2) = List.range (log.filterMap granted).length := by
  rw [tracks.grants, List.map_map, List.length_map, List.length_zipIdx, List.range_eq_range']
  exact List.zipIdx_map_snd 0 _

theorem length_granted (tracks : Tracks p log d) :
    (log.filterMap granted).length = d.order.size := by
  rw [tracks.grants, List.length_map, List.length_zipIdx, Array.length_toList]

end Tracks

end Log

/-! ## Ledgers -/

/-- A draft that keeps the indices in a table. -/
structure Ledger where
  /-- The identity of the program. -/
  program : Nat
  /-- The index of every declaration that has one. -/
  slots : List (Option Nat)
  /-- Handles of the declarations that have an index, by function index. -/
  order : List FuncRef

/-- A numbering with a table of the indices. -/
structure Directory where
  /-- The identity of the program. -/
  program : Nat
  /-- The index of every declaration. -/
  indices : List Nat
  /-- Handles, by function index. -/
  order : List FuncRef

namespace Ledger

/-- The ledger for a program, with nothing numbered. -/
def ofProgram (p : Program) : Ledger := ⟨p.id, List.replicate p.size none, []⟩

/-- The slot of a handle. -/
def slot? (l : Ledger) (f : FuncRef) : Option (Option Nat) :=
  if f.program = l.program then l.slots[f.index]? else none

/-- Gives the next free index to a handle. -/
def ask (l : Ledger) (f : FuncRef) : Ledger × Except NumberingError Nat :=
  match l.slot? f with
  | none => (l, .error (.notRegistered f.index))
  | some (some k) => (l, .error (.alreadyResolved f.index k))
  | some none =>
    ({ l with slots := l.slots.set f.index (some l.order.length), order := l.order ++ [f] },
      .ok l.order.length)

/-- Ends the ledger; every declaration must have an index. -/
def finish (l : Ledger) : Except NumberingError Directory :=
  match l.slots.findIdx? (·.isNone) with
  | some i => .error (.neverAssigned i)
  | none => .ok ⟨l.program, l.slots.reduceOption, l.order⟩

end Ledger

/-- The index of the function that a handle names, or the error that it has none. -/
def Directory.indexOf (t : Directory) (f : FuncRef) : Except NumberingError Nat :=
  match if f.program = t.program then t.indices[f.index]? else none with
  | some i => .ok i
  | none => .error (.notRegistered f.index)

/-- A numbering, with the table of its indices. -/
def directory (n : Numbering) : Directory :=
  ⟨n.program, (List.range n.size).map (n.order.toList.idxOf ·), n.refs⟩

namespace Draft

variable {p : Program} {d : Draft} {f : FuncRef}

/-- A draft, with the table of its indices. -/
def ledger (d : Draft) : Ledger :=
  ⟨d.program, (List.range d.size).map d.order.idxOf?, d.order.toList.map fun i => ⟨d.program, i⟩⟩

theorem ledger_ofProgram (p : Program) : (ofProgram p).ledger = .ofProgram p := by
  have slots : (List.range p.size).map (#[] : Array Nat).idxOf? = List.replicate p.size none := by
    rw [List.eq_replicate_iff]
    simp
  rw [ledger, ofProgram, slots]
  rfl

theorem getElem?_slots (d : Draft) (i : Nat) :
    d.ledger.slots[i]? = if i < d.size then some (d.order.idxOf? i) else none := by
  rw [ledger, List.getElem?_map]
  split
  · rename_i lt
    rw [List.getElem?_range lt, Option.map_some]
  · rename_i ge
    rw [List.getElem?_eq_none (by simpa using ge), Option.map_none]

/-- One more position in the row: its slot is filled, and the others stay. -/
theorem slots_push {i : Nat} (fresh : d.order.idxOf? i = none) :
    ({ d with order := d.order.push i } : Draft).ledger.slots =
      d.ledger.slots.set i (some d.order.size) := by
  have size : d.ledger.slots.length = d.size := by simp [ledger]
  apply List.ext_getElem?
  intro j
  rw [getElem?_slots, List.getElem?_set, getElem?_slots, size]
  show (if j < d.size then some ((d.order.push i).idxOf? j) else none) = _
  rw [idxOf?_push]
  by_cases same : i = j
  · subst same
    simp [fresh]
  · simp [same]

theorem slot?_ledger (d : Draft) (f : FuncRef) :
    d.ledger.slot? f = if d.covers f then some (d.order.idxOf? f.index) else none := by
  rw [Ledger.slot?, getElem?_slots, covers]
  by_cases own : f.program = d.program <;> by_cases lt : f.index < d.size <;> simp [own, lt, ledger]

/-- A ledger answers as the draft does, and stays its ledger. -/
theorem ask_ledger (d : Draft) (f : FuncRef) :
    d.ledger.ask f = ((d.ask f).1.ledger, (d.ask f).2) := by
  rw [Ledger.ask, slot?_ledger]
  cases covered : d.covers f with
  | false => rw [ask_foreign covered]; rfl
  | true =>
    cases found : d.order.idxOf? f.index with
    | some k => rw [ask_repeated covered found]; rfl
    | none =>
      have own : f = ⟨d.program, f.index⟩ := by rw [← (covers_iff.1 covered).1]
      have length : d.ledger.order.length = d.order.size := by simp [ledger]
      have row : d.ledger.order ++ [f] =
          ({ d with order := d.order.push f.index } : Draft).ledger.order := by
        simp [ledger, ← own]
      rw [ask_fresh covered found, if_pos rfl]
      simp only [length, row, ← slots_push found]
      rfl

/-- The table and the row of a ledger are inverse to each other. -/
theorem Sound.slots_iff_order (sound : d.Sound p) (i k : Nat) :
    d.ledger.slots[i]? = some (some k) ↔ d.ledger.order[k]? = some (p.ref i) := by
  have row : d.ledger.order[k]? = some (p.ref i) ↔ d.order.toList[k]? = some i := by
    simp [ledger, sound.program, Program.ref]
  have bound : d.order.toList[k]? = some i → i < d.size := by
    intro here
    rw [sound.size]
    exact sound.bound i (List.mem_of_getElem? here)
  rw [row, getElem?_slots, ← idxOf?_eq_some_iff_of_nodup sound.nodup, Array.idxOf?_toList]
  rw [← idxOf?_eq_some_iff_of_nodup sound.nodup, Array.idxOf?_toList] at bound
  by_cases lt : i < d.size
  · rw [if_pos lt, Option.some.injEq]
  · rw [if_neg lt]
    exact iff_of_false (by simp) fun here => lt (bound here)

/-- A ledger ends when the draft does, with the same indices. -/
theorem Sound.finish_ledger (sound : d.Sound p) :
    d.ledger.finish = d.finish.map Numbering.directory := by
  have empty : d.ledger.slots.findIdx? (·.isNone) =
      (List.range d.size).find? (!d.order.contains ·) := by
    rw [ledger, List.findIdx?_map, findIdx?_range]
    simp only [Function.comp_def, isNone_idxOf?]
  rw [Ledger.finish, empty, finish]
  cases found : (List.range d.size).find? (!d.order.contains ·) with
  | some i => rfl
  | none =>
    have all : ∀ i < d.size, i ∈ d.order := by simpa using found
    have count : d.order.size = d.size := by simpa using (sound.perm_range all).length_eq
    have filled : d.ledger.slots = ((List.range d.size).map (d.order.toList.idxOf ·)).map some := by
      rw [ledger, List.map_map]
      exact List.map_congr_left fun i mem => idxOf?_of_mem (all i (List.mem_range.1 mem))
    show Except.ok (Directory.mk d.program d.ledger.slots.reduceOption _) = Except.ok _
    rw [filled, List.reduceOption, List.filterMap_map, Function.id_comp, List.filterMap_some,
      directory, Numbering.size, count]
    rfl

end Draft

/-- The table of a numbering holds what is found in its row. -/
theorem Complete.indexOf_directory {n : Numbering} (complete : n.Complete) (f : FuncRef) :
    n.directory.indexOf f = n.indexOf f := by
  have entry : ∀ i, n.directory.indices[i]? = n.order.idxOf? i := by
    intro i
    by_cases lt : i < n.size
    · have mem : i ∈ n.order := Array.mem_toList_iff.1 ((complete.mem i).2 lt)
      rw [directory, List.getElem?_map, List.getElem?_range lt, idxOf?_of_mem mem]
      rfl
    · have missing : i ∉ n.order := fun mem => lt ((complete.mem i).1 (Array.mem_toList_iff.2 mem))
      rw [Array.idxOf?_eq_none_iff.2 missing]
      exact List.getElem?_eq_none (by simpa [directory] using lt)
  rw [Directory.indexOf, entry]
  rfl

/-! ## Every row of requests -/

/-- What a draft for `p` does next when it has answered the requests of `log`. -/
structure Draft.Follows (p : Program) (log : Log) (d : Draft) : Prop where
  /-- Indices were given out in order, from zero. -/
  counted : (log.filterMap Log.granted).map (·.2) = List.range (log.filterMap Log.granted).length
  /-- A handle that the program does not own is refused, and nothing changes. -/
  foreign : ∀ f, p.owns f = false → d.ask f = (d, .error (.notRegistered f.index))
  /-- A handle that has an index is refused, and nothing changes. -/
  repeated : ∀ f k, (f, .ok k) ∈ log → d.ask f = (d, .error (.alreadyResolved f.index k))
  /-- Any other handle gets the next index. -/
  fresh : ∀ f, p.owns f = true → (∀ k, (f, .ok k) ∉ log) →
    (d.ask f).2 = .ok (log.filterMap Log.granted).length
  /-- The draft can end exactly when every handle has an index. -/
  ends : (∃ n, d.finish = .ok n) ↔ ∀ f, p.owns f = true → ∃ k, (f, .ok k) ∈ log

/-- The row of a numbering lists the handles of `p`, its indices are the positions in that row, and
they are the ones in `log`. -/
structure Inverse (p : Program) (log : Log) (n : Numbering) : Prop where
  /-- Every handle of the program stands in the row once. -/
  perm : n.refs.Perm p.refs
  /-- The index of a handle in the row is its position. -/
  index : ∀ i (lt : i < n.refs.length), n.indexOf (n.refs.get ⟨i, lt⟩) = .ok i
  /-- At the index of a handle stands that handle. -/
  handle : ∀ f, p.owns f = true → ∃ i, n.indexOf f = .ok i ∧ n.refs[i]? = some f
  /-- No other handle has an index. -/
  foreign : ∀ f, p.owns f = false → n.indexOf f = .error (.notRegistered f.index)
  /-- The indices are the ones that were given out. -/
  logged : ∀ f i, n.indexOf f = .ok i ↔ (f, .ok i) ∈ log

/-- The table of a draft's ledger goes with its row, to the end and in the numbering. -/
structure Draft.Tabled (p : Program) (d : Draft) : Prop where
  /-- Table and row are inverse to each other. -/
  inverse : ∀ i k, d.ledger.slots[i]? = some (some k) ↔ d.ledger.order[k]? = some (p.ref i)
  /-- The ledger ends as the draft does. -/
  finish : d.ledger.finish = d.finish.map directory
  /-- The indices in the table are those of the numbering. -/
  index : ∀ n, d.finish = .ok n → ∀ f, n.directory.indexOf f = n.indexOf f

namespace Log.Tracks

variable {p : Program} {log : Log} {d : Draft}

theorem follows (tracks : Tracks p log d) : d.Follows p log where
  counted := tracks.indices
  foreign f foreign := Draft.ask_foreign (by rw [tracks.covers, foreign])
  repeated f k mem := by
    have own := (tracks.mem_log.1 mem).1
    have covered : d.covers f = true := by
      rw [Draft.covers_iff, tracks.program, tracks.size]
      exact ⟨own, tracks.bound _ (List.mem_of_getElem? (tracks.mem_log.1 mem).2)⟩
    exact Draft.ask_repeated covered ((tracks.idxOf?_eq_some own).2 mem)
  fresh f own new := by
    have unseen : d.order.idxOf? f.index = none := by
      rw [Array.idxOf?_eq_none_iff, tracks.mem_order (Program.owns_iff.1 own).1]
      exact not_exists.2 new
    rw [Draft.ask_fresh (by rw [tracks.covers, own]) unseen, tracks.length_granted]
  ends := by
    have all : (∃ n, d.finish = .ok n) ↔ ∀ i < d.size, i ∈ d.order := by
      simp only [Draft.finish_eq_ok, exists_and_left, exists_eq, and_true]
    rw [all, tracks.size]
    constructor
    · intro every f own
      obtain ⟨program, lt⟩ := Program.owns_iff.1 own
      exact (tracks.mem_order program).1 (every f.index lt)
    · intro every i lt
      exact (tracks.mem_order (f := p.ref i) rfl).2 (every _ (Program.owns_iff.2 ⟨rfl, lt⟩))

theorem inverse (tracks : Tracks p log d) {n : Numbering} (finished : d.finish = .ok n) :
    n.Inverse p log := by
  have complete := tracks.complete finished
  obtain ⟨all, rfl⟩ := Draft.finish_eq_ok.1 finished
  have perm : (⟨d.program, d.order⟩ : Numbering).refs.Perm p.refs := by
    rw [refs, Program.refs, ← tracks.size, tracks.program]
    exact (tracks.perm_range all).map _
  refine ⟨perm, ?_, ?_, ?_, ?_⟩
  · intro i lt
    rw [indexOf_eq_ok, complete.indexOf?_eq_some]
    exact List.getElem?_eq_getElem lt
  · intro f own
    obtain ⟨i, here⟩ := List.mem_iff_getElem?.1 (perm.mem_iff.2 (Program.mem_refs.2 own))
    exact ⟨i, indexOf_eq_ok.2 (complete.indexOf?_eq_some.2 here), here⟩
  · intro f foreign
    have unlisted : f ∉ (⟨d.program, d.order⟩ : Numbering).refs := by
      rw [perm.mem_iff, Program.mem_refs, foreign]
      exact Bool.false_ne_true
    rw [indexOf]
    cases found : (⟨d.program, d.order⟩ : Numbering).indexOf? f with
    | none => rfl
    | some i => exact absurd (List.mem_of_getElem? (getElem?_refs_of_indexOf? found)) unlisted
  · intro f i
    rw [indexOf_eq_ok, complete.indexOf?_eq_some, getElem?_refs, Option.map_eq_some_iff,
      tracks.mem_log, ← tracks.program]
    constructor
    · rintro ⟨k, here, rfl⟩
      exact ⟨rfl, here⟩
    · rintro ⟨own, here⟩
      exact ⟨f.index, here, by rw [← own]⟩

theorem tabled (tracks : Tracks p log d) : d.Tabled p where
  inverse := tracks.slots_iff_order
  finish := tracks.finish_ledger
  index _ finished f := (tracks.complete finished).indexOf_directory f

end Log.Tracks

end Numbering

/-- Whatever handles a draft for a program is asked to number, with whatever refusals: it counts its
indices up from zero, refuses exactly the foreign and the numbered handles, and ends exactly when
all handles of the program have indices; then these are a bijection.  A ledger, which keeps a table
of the indices, does the same. -/
theorem Program.requests_number (p : Program) (fs : List FuncRef) :
    ∃ (d : Numbering.Draft) (log : Numbering.Log),
      Numbering.Log.serve Numbering.Draft.ask (.ofProgram p) fs = (d, log) ∧
      log.map (·.1) = fs ∧ d.Follows p log ∧ (∀ n, d.finish = .ok n → n.Inverse p log) ∧
      Numbering.Log.serve Numbering.Ledger.ask (.ofProgram p) fs = (d.ledger, log) ∧
      d.Tabled p := by
  have tracks := Numbering.Log.Tracks.serve p fs
  refine ⟨_, _, rfl, Numbering.Log.map_fst_serve .., tracks.follows, fun _ => tracks.inverse, ?_,
    tracks.tabled⟩
  rw [← Numbering.Draft.ledger_ofProgram]
  exact Numbering.Log.serve_view Numbering.Draft.ask_ledger _ fs

/-- A row with a repeated handle and two foreign ones among the three that are numbered. -/
theorem Program.requests_number_sample :
    ∃ (d : Numbering.Draft) (log : Numbering.Log),
      Numbering.Log.serve Numbering.Draft.ask (.ofProgram sample)
        [⟨7, 1⟩, ⟨7, 1⟩, ⟨8, 0⟩, ⟨7, 0⟩, ⟨7, 3⟩, ⟨7, 2⟩] = (d, log) ∧
      d.finish = .ok .sample ∧ Numbering.sample.Inverse sample log := by
  obtain ⟨d, log, served, -, -, inverse, -⟩ :=
    requests_number sample [⟨7, 1⟩, ⟨7, 1⟩, ⟨8, 0⟩, ⟨7, 0⟩, ⟨7, 3⟩, ⟨7, 2⟩]
  have finished : d.finish = .ok .sample := by
    have row : (Numbering.Log.serve Numbering.Draft.ask (.ofProgram sample)
        [⟨7, 1⟩, ⟨7, 1⟩, ⟨8, 0⟩, ⟨7, 0⟩, ⟨7, 3⟩, ⟨7, 2⟩]).1.finish = .ok .sample := by
      decide +kernel
    rwa [served] at row
  exact ⟨d, log, served, finished, inverse _ finished⟩

end WasmForge

import Mathlib
import WasmForge.Host.LoaderScript
import WasmForge.Proofs.Numbering

/-!
# Names of parameters in loader scripts

The function that a script defines for an import has one parameter for each declared one.  The
names are identifiers, and no two are the same.  A declared name that can be used is kept, unless
the position of an earlier name that cannot be used was given that very name to stand in: names are
chosen first to last, and a stand-in only keeps clear of the names before it.

* `IsIdentifier`: what an identifier is.
* `Lengthens`, `Chooses`: how names are chosen, with no bound on the number of underscores.
* `chooseAll_legal`: choosing ends, with different identifiers.
* `Displaces`: a stand-in takes the name of a later parameter.
* `kept_unless_displaced`: which parameter the host code finds under a declared name.
-/

namespace WasmForge.ParamNames

/-! ## Identifiers -/

/-- An ASCII letter, or one of the two signs that count as letters. -/
def IsLetter (c : Char) : Prop :=
  'a' ≤ c ∧ c ≤ 'z' ∨ 'A' ≤ c ∧ c ≤ 'Z' ∨ c = '_' ∨ c = '$'

/-- A letter, then letters and digits, and not a reserved word. -/
structure IsIdentifier (name : String) : Prop where
  /-- The characters. -/
  shape : ∃ c rest, name.toList = c :: rest ∧ IsLetter c ∧
    ∀ d ∈ rest, IsLetter d ∨ '0' ≤ d ∧ d ≤ '9'
  /-- The word is free. -/
  free : name ∉ reservedWords

theorem isStart_iff (c : Char) : isStart c = true ↔ IsLetter c := by
  simp only [isStart, IsLetter, Char.isAlpha, Char.isUpper, Char.isLower, Char.le_def,
    Bool.or_eq_true, Bool.and_eq_true, decide_eq_true_eq, beq_iff_eq, ge_iff_le]
  tauto

theorem isPart_iff (c : Char) : isPart c = true ↔ IsLetter c ∨ '0' ≤ c ∧ c ≤ '9' := by
  simp only [isPart, Bool.or_eq_true, isStart_iff, Char.isDigit, Char.le_def, Bool.and_eq_true,
    decide_eq_true_eq, ge_iff_le]

/-- The names that can be used are the identifiers. -/
theorem isUsable_iff (name : String) : isUsable name = true ↔ IsIdentifier name := by
  unfold isUsable
  cases chars : name.toList with
  | nil =>
    refine iff_of_false (by simp) ?_
    rintro ⟨⟨c, rest, shape, -⟩, -⟩
    rw [chars] at shape
    cases shape
  | cons c rest =>
    simp only [Bool.and_eq_true, List.all_eq_true, isStart_iff, isPart_iff, Bool.not_eq_true',
      List.contains_eq_mem, decide_eq_false_iff_not]
    constructor
    · rintro ⟨⟨first, others⟩, free⟩
      exact ⟨⟨c, rest, chars, first, others⟩, free⟩
    · rintro ⟨⟨c', rest', shape, first, others⟩, free⟩
      rw [chars] at shape
      cases shape
      exact ⟨⟨first, others⟩, free⟩

/-! ## Underscores -/

/-- A name with underscores at its end. -/
def lengthened (name : String) (count : Nat) : String :=
  name ++ String.ofList (List.replicate count '_')

@[simp] theorem toList_lengthened (name : String) (count : Nat) :
    (lengthened name count).toList = name.toList ++ List.replicate count '_' := by
  simp [lengthened]

@[simp] theorem lengthened_zero (name : String) : lengthened name 0 = name := by
  simp [← String.toList_inj]

theorem lengthened_push (name : String) (count : Nat) :
    lengthened (name.push '_') count = lengthened name (count + 1) := by
  simp [← String.toList_inj, List.replicate_succ]

theorem lengthened_injective (name : String) : Function.Injective (lengthened name) := by
  intro m n same
  have lengths := congrArg (fun s : String => s.toList.length) same
  simpa using lengths

/-- Of the candidates for a name, one more than there are taken names, one is free. -/
theorem exists_lengthened_notMem (taken : List String) (name : String) :
    ∃ count ≤ taken.length, lengthened name count ∉ taken := by
  by_contra none
  push Not at none
  have nodup : ((List.range (taken.length + 1)).map (lengthened name)).Nodup :=
    List.nodup_range.map (lengthened_injective name)
  have inside : (List.range (taken.length + 1)).map (lengthened name) ⊆ taken := by
    intro candidate mem
    obtain ⟨count, bound, rfl⟩ := List.mem_map.1 mem
    exact none count (Nat.lt_succ_iff.1 (List.mem_range.1 bound))
  have few := (List.subperm_of_subset nodup inside).length_le
  simp at few

/-- Adding underscores as long as the name is taken ends with this name. -/
inductive Lengthens (taken : List String) : String → String → Prop where
  /-- The name is free. -/
  | done {name : String} (new : name ∉ taken) : Lengthens taken name name
  /-- The name is taken, and so it gets another underscore. -/
  | again {name chosen : String} (used : name ∈ taken)
      (rounds : Lengthens taken (name.push '_') chosen) : Lengthens taken name chosen

variable {taken : List String} {name chosen : String}

theorem Lengthens.notMem (run : Lengthens taken name chosen) : chosen ∉ taken := by
  induction run with
  | done new => exact new
  | again _ _ ih => exact ih

theorem Lengthens.exists_lengthened (run : Lengthens taken name chosen) :
    ∃ count, chosen = lengthened name count := by
  induction run with
  | done _ => exact ⟨0, (lengthened_zero _).symm⟩
  | again _ _ ih =>
    obtain ⟨count, rfl⟩ := ih
    exact ⟨count + 1, lengthened_push _ count⟩

theorem Lengthens.unique {other : String} (run : Lengthens taken name chosen)
    (run' : Lengthens taken name other) : other = chosen := by
  induction run with
  | done new =>
    cases run' with
    | done _ => rfl
    | again used _ => exact absurd used new
  | again used _ ih =>
    cases run' with
    | done new => exact absurd used new
    | again _ rounds => exact ih rounds

/-- A bound on the number of underscores does not matter if it leaves room for a free name. -/
theorem lengthens_freeName_of_room {fuel : Nat}
    (room : ∃ count ≤ fuel, lengthened name count ∉ taken) :
    Lengthens taken name (freeName taken fuel name) := by
  induction fuel generalizing name with
  | zero =>
    obtain ⟨count, bound, new⟩ := room
    obtain rfl : count = 0 := Nat.le_zero.1 bound
    rw [lengthened_zero] at new
    exact .done new
  | succ fuel ih =>
    rw [freeName]
    by_cases used : name ∈ taken
    · rw [if_pos (List.contains_iff_mem.2 used)]
      refine .again used (ih ?_)
      obtain ⟨count, bound, new⟩ := room
      cases count with
      | zero =>
        rw [lengthened_zero] at new
        exact absurd used new
      | succ count =>
        rw [← lengthened_push] at new
        exact ⟨count, Nat.succ_le_succ_iff.1 bound, new⟩
    · rw [if_neg (by simpa using used)]
      exact .done used

theorem lengthens_freeName (taken : List String) (name : String) :
    Lengthens taken name (freeName taken taken.length name) :=
  lengthens_freeName_of_room (exists_lengthened_notMem taken name)

/-! ## Stand-ins -/

/-- The name that a position has instead of its own: `p` and its number, and underscores. -/
def standIn (position count : Nat) : String :=
  lengthened ("p" ++ String.ofList (Nat.toDigits 10 position)) count

theorem toList_standIn (position count : Nat) :
    (standIn position count).toList =
      'p' :: (Nat.toDigits 10 position ++ List.replicate count '_') := by
  simp [standIn]

/-- No reserved word has a digit as its second character. -/
theorem not_isDigit_of_reserved {word : String} (reserved : word ∈ reservedWords) {c : Char}
    (second : word.toList[1]? = some c) : c.isDigit = false := by
  have letters : ∀ w ∈ reservedWords, (w.toList[1]?.all fun c => !c.isDigit) = true := by
    decide +kernel
  have here := letters word reserved
  rw [second] at here
  simpa using here

/-- Every stand-in is an identifier. -/
theorem isUsable_standIn (position count : Nat) : isUsable (standIn position count) = true := by
  have digits : ∀ c ∈ Nat.toDigits 10 position, c.isDigit = true :=
    fun c mem => Nat.isDigit_of_mem_toDigits (by decide) (by decide) mem
  have free : standIn position count ∉ reservedWords := by
    intro reserved
    obtain ⟨d, more, number⟩ : ∃ d more, Nat.toDigits 10 position = d :: more :=
      List.exists_cons_of_ne_nil Nat.toDigits_ne_nil
    have second : (standIn position count).toList[1]? = some d := by
      rw [toList_standIn, number]
      rfl
    have digit := digits d (by simp [number])
    rw [not_isDigit_of_reserved reserved second] at digit
    cases digit
  have parts : ∀ c ∈ Nat.toDigits 10 position ++ List.replicate count '_', isPart c = true := by
    intro c mem
    rcases List.mem_append.1 mem with mem | mem
    · simp [isPart, digits c mem]
    · rw [List.eq_of_mem_replicate mem]
      rfl
  unfold isUsable
  rw [toList_standIn]
  simp only [Bool.and_eq_true, List.all_eq_true, Bool.not_eq_true', List.contains_eq_mem,
    decide_eq_false_iff_not]
  exact ⟨⟨rfl, parts⟩, free⟩

/-! ## Choosing -/

/-- The name that a position gets if it is not taken. -/
def wish (taken : List String) (position : Nat) (name : String) : String :=
  if isUsable name && !taken.contains name then name else standIn position 0

theorem choose_eq (taken : List String) (position : Nat) (name : String) :
    choose taken position name = freeName taken taken.length (wish taken position name) := by
  rw [choose, wish, standIn, lengthened_zero]

/-- The names for the parameters from a position on are chosen first to last, each kept clear of
those before it. -/
inductive Chooses : List String → Nat → List String → List String → Prop where
  /-- No parameters. -/
  | nil {taken : List String} {position : Nat} : Chooses taken position [] []
  /-- One more. -/
  | cons {taken names rest : List String} {position : Nat} {name chosen : String}
      (named : Lengthens taken (wish taken position name) chosen)
      (others : Chooses (chosen :: taken) (position + 1) names rest) :
      Chooses taken position (name :: names) (chosen :: rest)

variable {position : Nat}

theorem lengthens_choose (taken : List String) (position : Nat) (name : String) :
    Lengthens taken (wish taken position name) (choose taken position name) := by
  rw [choose_eq]
  exact lengthens_freeName taken _

/-- Choosing ends, and in one way. -/
theorem chooses_iff {names chosen : List String} :
    Chooses taken position names chosen ↔ chosen = chooseFrom taken position names := by
  constructor
  · intro run
    induction run with
    | nil => rfl
    | @cons taken names rest position name chosen named others ih =>
      have same := (lengthens_choose taken position name).unique named
      rw [chooseFrom, ih, same]
  · rintro rfl
    induction names generalizing taken position with
    | nil => exact .nil
    | cons name names ih => exact .cons (lengthens_choose taken position name) ih

/-- A name is kept if it can be used and is not taken; otherwise it has a stand-in. -/
theorem choose_cases (taken : List String) (position : Nat) (name : String) :
    (isUsable name = true ∧ name ∉ taken ∧ choose taken position name = name) ∨
    ((isUsable name = true → name ∈ taken) ∧
      ∃ count, choose taken position name = standIn position count) := by
  have run := lengthens_choose taken position name
  by_cases kept : isUsable name = true ∧ name ∉ taken
  · have own : wish taken position name = name := by simp [wish, kept]
    rw [own] at run
    exact .inl ⟨kept.1, kept.2, (Lengthens.done kept.2).unique run⟩
  · have other : wish taken position name = standIn position 0 := by
      rw [wish, if_neg]
      simpa using kept
    rw [other] at run
    obtain ⟨count, longer⟩ := run.exists_lengthened
    refine .inr ⟨by simpa using kept, count, ?_⟩
    rw [longer, standIn, lengthened_zero, standIn]

theorem choose_notMem (taken : List String) (position : Nat) (name : String) :
    choose taken position name ∉ taken :=
  (lengthens_choose taken position name).notMem

theorem isUsable_choose (taken : List String) (position : Nat) (name : String) :
    isUsable (choose taken position name) = true := by
  rcases choose_cases taken position name with ⟨usable, -, kept⟩ | ⟨-, count, other⟩
  · rw [kept]
    exact usable
  · rw [other]
    exact isUsable_standIn position count

theorem length_chooseFrom (taken : List String) (position : Nat) (names : List String) :
    (chooseFrom taken position names).length = names.length := by
  induction names generalizing taken position with
  | nil => rfl
  | cons name names ih => simp [chooseFrom, ih]

/-- Chosen names differ from each other and from those that were taken before. -/
theorem nodup_chooseFrom (taken : List String) (position : Nat) (names : List String) :
    (chooseFrom taken position names).Nodup ∧
      ∀ chosen ∈ chooseFrom taken position names, chosen ∉ taken := by
  induction names generalizing taken position with
  | nil => simp [chooseFrom]
  | cons name names ih =>
    obtain ⟨nodup, new⟩ := ih (choose taken position name :: taken) (position + 1)
    simp only [chooseFrom, List.nodup_cons, List.forall_mem_cons]
    refine ⟨⟨?_, nodup⟩, choose_notMem taken position name, ?_⟩
    · intro again
      exact new _ again List.mem_cons_self
    · intro chosen mem used
      exact new chosen mem (List.mem_cons_of_mem _ used)

theorem isUsable_of_mem_chooseFrom {names : List String}
    (mem : chosen ∈ chooseFrom taken position names) : isUsable chosen = true := by
  induction names generalizing taken position with
  | nil => cases mem
  | cons name names ih =>
    rcases List.mem_cons.1 mem with rfl | mem
    · exact isUsable_choose taken position name
    · exact ih mem

/-- Choosing names, with no bound on the number of underscores, ends with one list: it has a name
for every parameter, no two are the same, and all of them are identifiers, as every stand-in is. -/
theorem chooseAll_legal (names : List String) :
    (∀ chosen, Chooses [] 0 names chosen ↔ chosen = chooseAll names) ∧
    (chooseAll names).length = names.length ∧
    (chooseAll names).Nodup ∧
    (∀ name ∈ chooseAll names, isUsable name = true ∧ IsIdentifier name) ∧
    ∀ position count, isUsable (standIn position count) = true ∧
      IsIdentifier (standIn position count) := by
  refine ⟨fun chosen => chooses_iff, length_chooseFrom [] 0 names, (nodup_chooseFrom [] 0 names).1,
    ?_, ?_⟩
  · intro name mem
    have usable := isUsable_of_mem_chooseFrom mem
    exact ⟨usable, (isUsable_iff name).1 usable⟩
  · intro position count
    have usable := isUsable_standIn position count
    exact ⟨usable, (isUsable_iff _).1 usable⟩

/-! ## Kept names -/

/-- The name at a position is chosen when the names before it are taken. -/
theorem getElem?_chooseFrom (taken : List String) (position : Nat) (names : List String) (i : Nat) :
    (chooseFrom taken position names)[i]? =
      names[i]?.map (choose (((chooseFrom taken position names).take i).reverse ++ taken)
        (position + i)) := by
  induction names generalizing taken position i with
  | nil => simp [chooseFrom]
  | cons name names ih =>
    cases i with
    | zero => simp [chooseFrom]
    | succ i =>
      have moved : position + 1 + i = position + (i + 1) := by omega
      simp [chooseFrom, ih, moved]

/-- What the host code finds under a name: the parameter at this position. -/
def found? (names : List String) (name : String) : Option Nat := (chooseAll names).idxOf? name

/-- The parameter at a position has the name, although it is not its own: its own name is no
identifier, or is taken. -/
structure Displaces (names : List String) (position : Nat) (name : String) : Prop where
  /-- The position is given the name. -/
  chosen : (chooseAll names)[position]? = some name
  /-- The name is a stand-in for this position. -/
  standsIn : ∃ count, name = standIn position count
  /-- The own name cannot be used. -/
  own : ∃ own, names[position]? = some own ∧ own ≠ name ∧
    (isUsable own = true → own ∈ (chooseAll names).take position)

theorem getElem?_chooseAll (names : List String) (i : Nat) :
    (chooseAll names)[i]? = names[i]?.map (choose ((chooseAll names).take i).reverse i) := by
  simpa [chooseAll] using getElem?_chooseFrom [] 0 names i

theorem found?_eq_some {names : List String} {i : Nat} :
    found? names name = some i ↔ (chooseAll names)[i]? = some name :=
  idxOf?_eq_some_iff_of_nodup (nodup_chooseFrom [] 0 names).1

/-- A position that is given a name that is not its own displaces it. -/
theorem displaces_of_ne {names : List String} {j : Nat} {own : String}
    (chosen : (chooseAll names)[j]? = some name) (at_j : names[j]? = some own)
    (other : own ≠ name) : Displaces names j name := by
  have made := getElem?_chooseAll names j
  rw [chosen, at_j, Option.map_some, Option.some.injEq] at made
  rcases choose_cases ((chooseAll names).take j).reverse j own with
    ⟨-, -, kept⟩ | ⟨lost, count, standing⟩
  · exact absurd (made.trans kept).symm other
  · refine ⟨chosen, ⟨count, made.trans standing⟩, own, at_j, other, ?_⟩
    simpa using lost

/-- A name that can be used and is not that of an earlier parameter is kept exactly when no earlier
position displaces it, and then the host code finds the parameter under its own name.  Otherwise it
finds the parameter at the earlier position there.  Only names that read like stand-ins can be
displaced. -/
theorem kept_unless_displaced {names : List String} {i : Nat} (at_i : names[i]? = some name)
    (usable : isUsable name = true) (first : ∀ j < i, names[j]? ≠ some name) :
    ((chooseAll names)[i]? = some name ↔ ∀ j < i, ¬Displaces names j name) ∧
    ((∀ j < i, ¬Displaces names j name) → found? names name = some i) ∧
    (∀ j < i, Displaces names j name → found? names name = some j) ∧
    ((∀ j < i, ∀ count, name ≠ standIn j count) → found? names name = some i) := by
  have kept : (∀ j < i, ¬Displaces names j name) → (chooseAll names)[i]? = some name := by
    intro undisturbed
    rw [getElem?_chooseAll, at_i, Option.map_some, Option.some.injEq]
    rcases choose_cases ((chooseAll names).take i).reverse i name with ⟨-, -, kept⟩ | ⟨lost, -⟩
    · exact kept
    · -- an earlier position was given the name, and it was not its own
      obtain ⟨j, before, chosen⟩ := List.mem_take_iff_getElem.1 (List.mem_reverse.1 (lost usable))
      have here : (chooseAll names)[j]? = some name := List.getElem?_eq_some_iff.2 ⟨_, chosen⟩
      obtain ⟨own, at_j⟩ : ∃ own, names[j]? = some own := by
        rw [getElem?_chooseAll] at here
        obtain ⟨own, at_j, -⟩ := Option.map_eq_some_iff.1 here
        exact ⟨own, at_j⟩
      have earlier : j < i := by omega
      refine absurd (displaces_of_ne here at_j ?_) (undisturbed j earlier)
      rintro rfl
      exact first j earlier at_j
  refine ⟨⟨?_, kept⟩, ?_, ?_, ?_⟩
  · intro here j earlier displaced
    have twice := (found?_eq_some.2 here).symm.trans (found?_eq_some.2 displaced.chosen)
    have same := Option.some.inj twice
    omega
  · intro undisturbed
    exact found?_eq_some.2 (kept undisturbed)
  · intro j _ displaced
    exact found?_eq_some.2 displaced.chosen
  · intro plain
    refine found?_eq_some.2 (kept ?_)
    intro j earlier displaced
    obtain ⟨count, same⟩ := displaced.standsIn
    exact plain j earlier count same

/-- A reserved word before a parameter called `p0`: the word has `p0` to stand in, and the parameter
becomes `p1`.  A later name is kept. -/
theorem kept_unless_displaced_sample :
    found? ["class", "p0", "x"] "p0" = some 0 ∧ found? ["class", "p0", "x"] "x" = some 2 := by
  have chosen : chooseAll ["class", "p0", "x"] = ["p0", "p1", "x"] := by decide +kernel
  constructor
  · have taken : Displaces ["class", "p0", "x"] 0 "p0" :=
      displaces_of_ne (by rw [chosen]; rfl) rfl (by decide)
    exact (kept_unless_displaced (i := 1) rfl (by decide +kernel) (by decide)).2.2.1 0 (by decide)
      taken
  · have others : ∀ j < 2, ["p0", "p1", "x"][j]? ≠ some "x" := by decide
    refine (kept_unless_displaced (i := 2) rfl (by decide +kernel) (by decide)).2.1 ?_
    intro j before displaced
    have taken := displaced.chosen
    rw [chosen] at taken
    exact others j before taken

/-- A name that can be used and is not repeated need not be kept: a stand-in before it displaces it.
The host code then has the first argument under the name of the second parameter. -/
theorem name_displaced :
    (¬∀ (names : List String) (i : Nat) (name : String), names[i]? = some name →
      isUsable name = true → (∀ j < i, names[j]? ≠ some name) →
        (chooseAll names)[i]? = some name) ∧
    LoaderScript.importFunction ⟨0, "pick", .imported, [⟨.int32, "class"⟩, ⟨.int32, "p0"⟩], .int32,
        some "return p0"⟩ =
      "  \"pick\": function (p0, p1) \x7b\nreturn p0\n  \x7d,\n" := by
  constructor
  · intro always
    have kept := always ["class", "p0"] 1 "p0" rfl (by decide +kernel) (by decide)
    exact absurd kept (by decide +kernel)
  · decide +kernel

end WasmForge.ParamNames

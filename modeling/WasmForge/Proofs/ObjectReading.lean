import Mathlib
import WasmForge.Proofs.MapRoundTrip
import WasmForge.Proofs.ParameterNames

/-!
# Reading the object of a loader script

The object with everything that a module imports is script text, with the host's code inside.  A
reader of that text finds a key, skips the value, and goes on after the comma.  To find the end of a
value it has to know about brackets, literals and comments.  Where that is not enough, at a division
or in a template with a substitution, it gives up.

* `ScriptPosition.step`: what a single character does.
* `skipValue?`, `readObject?`: a value, and the keys of a whole object.
* `Contained`: host code that ends where it began, so that it cannot be mistaken for properties.
* `Spells`: the text of a property, with its key.
* `readObject?_eq`: the keys of an object whose properties are spelled one after the other.
-/

namespace WasmForge

/-! ## Script text -/

/-- What a reader of script text is in the middle of. -/
inductive ScriptMode where
  /-- Code. -/
  | code
  /-- A literal that ends with the mark. -/
  | quoted (mark : Char)
  /-- An escape in such a literal. -/
  | escaped (mark : Char)
  /-- The beginning of a comment. -/
  | slash
  /-- A comment, which goes to the end of the line. -/
  | comment
  deriving DecidableEq

/-- Where a reader of script text is. -/
structure ScriptPosition where
  /-- What it is in the middle of. -/
  mode : ScriptMode
  /-- The number of brackets around it. -/
  depth : Nat
  deriving DecidableEq

namespace ScriptPosition

/-- Does the character begin a literal? -/
def isMark (c : Char) : Bool := c == '"' || c == '\x27' || c == '\x60'

/-- Does the character end a line? -/
def isLineEnd (c : Char) : Bool :=
  c == '\n' || c == '\r' || c == '\u2028' || c == '\u2029'

/-- The position after a character.  There is none if the character closes no bracket, ends a line
in a literal, or is one that only a full reader of the language can make sense of. -/
def step (s : ScriptPosition) (c : Char) : Option ScriptPosition :=
  match s.mode with
  | .code =>
    if isMark c then some ⟨.quoted c, s.depth⟩
    else if c = '/' then some ⟨.slash, s.depth⟩
    else if c = '(' ∨ c = '[' ∨ c = '\x7b' then some ⟨.code, s.depth + 1⟩
    else if c = ')' ∨ c = ']' ∨ c = '\x7d' then
      if s.depth = 0 then none else some ⟨.code, s.depth - 1⟩
    else some s
  | .quoted mark =>
    if c = mark then some ⟨.code, s.depth⟩
    else if c = '\\' then some ⟨.escaped mark, s.depth⟩
    else if mark = '\x60' then if c = '$' then none else some s
    else if isLineEnd c then none else some s
  | .escaped mark => some ⟨.quoted mark, s.depth⟩
  | .slash => if c = '/' then some ⟨.comment, s.depth⟩ else none
  | .comment => if isLineEnd c then some ⟨.code, s.depth⟩ else some s

/-- The position after characters, first to last. -/
def run (s : ScriptPosition) (text : List Char) : Option ScriptPosition := text.foldlM step s

/-- The same position inside one more bracket. -/
def deeper (s : ScriptPosition) : ScriptPosition := ⟨s.mode, s.depth + 1⟩

variable {s t : ScriptPosition} {c : Char}

/-- What a character does inside a bracket does not depend on what is around the bracket. -/
theorem step_deeper (read : s.step c = some t) : s.deeper.step c = some t.deeper := by
  obtain ⟨mode, depth⟩ := s
  cases mode <;> simp only [step, deeper] at read ⊢ <;> grind

theorem run_cons {text : List Char} :
    s.run (c :: text) = some t ↔ ∃ u, s.step c = some u ∧ u.run text = some t := by
  simp [run, Option.bind_eq_some_iff]

end ScriptPosition

namespace LoaderScript

open ScriptPosition

/-! ## Values -/

/-- What follows a value, from the comma or the bracket on that ends it. -/
def skipValue? (s : ScriptPosition) : List Char → Option (List Char)
  | [] => none
  | c :: rest =>
    if s = ⟨.code, 0⟩ ∧ (c = ',' ∨ c = '\x7d') then some (c :: rest)
    else (s.step c).bind fun t => skipValue? t rest

/-- Text inside a bracket does not end a value. -/
theorem skipValue?_deeper {s t : ScriptPosition} {text : List Char} (read : s.run text = some t)
    (rest : List Char) : skipValue? s.deeper (text ++ rest) = skipValue? t.deeper rest := by
  induction text generalizing s with
  | nil =>
    cases read
    rfl
  | cons c text ih =>
    obtain ⟨u, first, read⟩ := run_cons.1 read
    have inside : s.deeper ≠ ⟨.code, 0⟩ := by simp [deeper]
    rw [List.cons_append, skipValue?, if_neg fun ends => inside ends.1, step_deeper first,
      Option.bind_some]
    exact ih read

/-- Does the text end where it began: in code, and with its brackets closed? -/
def Contained (text : String) : Prop := run ⟨.code, 0⟩ text.toList = some ⟨.code, 0⟩

instance (text : String) : Decidable (Contained text) := inferInstanceAs (Decidable (_ = _))

theorem Contained.append {first second : String} (contained : Contained first)
    (contained' : Contained second) : Contained (first ++ second) := by
  unfold Contained run at *
  rw [String.toList_append, List.foldlM_append, contained]
  exact contained'

theorem Contained.intercalate {mark : String} (contained : Contained mark) {texts : List String}
    (each : ∀ text ∈ texts, Contained text) : Contained (mark.intercalate texts) := by
  induction texts with
  | nil => rfl
  | cons text texts ih =>
    obtain ⟨first, each⟩ := List.forall_mem_cons.1 each
    cases texts with
    | nil => rwa [String.intercalate_singleton]
    | cons next texts =>
      rw [String.intercalate_cons_cons]
      exact (first.append contained).append (ih each)

/-- A character of an identifier leaves a reader where it is. -/
theorem step_of_isPart {c : Char} (part : ParamNames.isPart c = true) (depth : Nat) :
    step ⟨.code, depth⟩ c = some ⟨.code, depth⟩ := by
  have other : ∀ x, ParamNames.isPart x = false → c ≠ x := by
    rintro x no rfl
    rw [part] at no
    cases no
  simp [step, isMark, other '"' (by decide), other '\x27' (by decide), other '\x60' (by decide),
    other '/' (by decide), other '(' (by decide), other '[' (by decide), other '\x7b' (by decide),
    other ')' (by decide), other ']' (by decide), other '\x7d' (by decide)]

/-- Names of parameters have no brackets, quotation marks and slashes. -/
theorem contained_of_isUsable {name : String} (usable : ParamNames.isUsable name = true) :
    Contained name := by
  have parts : ∀ c ∈ name.toList, ParamNames.isPart c = true := by
    unfold ParamNames.isUsable at usable
    intro c mem
    cases chars : name.toList with
    | nil =>
      rw [chars] at mem
      cases mem
    | cons first rest =>
      rw [chars] at mem
      simp only [chars, Bool.and_eq_true, List.all_eq_true] at usable
      rcases List.mem_cons.1 mem with rfl | mem
      · simp [ParamNames.isPart, usable.1.1]
      · exact usable.1.2 c mem
  unfold Contained
  generalize name.toList = text at parts
  induction text with
  | nil => rfl
  | cons c text ih =>
    obtain ⟨part, parts⟩ := List.forall_mem_cons.1 parts
    exact run_cons.2 ⟨_, step_of_isPart part 0, ih parts⟩

/-! ## Keys -/

/-- What stands in quotes, from behind the opening mark, and what follows the closing one. -/
def splitQuoted? : List Char → Option (List Char × List Char)
  | [] => none
  | '"' :: rest => some ([], rest)
  | '\\' :: c :: rest => (splitQuoted? rest).map fun (inside, rest) => ('\\' :: c :: inside, rest)
  | c :: rest => (splitQuoted? rest).map fun (inside, rest) => (c :: inside, rest)

theorem splitQuoted?_escapeChar (c : Char) (text : List Char) :
    splitQuoted? (Json.escapeChar c ++ text) =
      (splitQuoted? text).map fun (inside, rest) => (Json.escapeChar c ++ inside, rest) := by
  unfold Json.escapeChar
  split
  any_goals rfl
  rename_i quote slash _ _ _ _ _
  split
  · simp [splitQuoted?, Option.map_map, Function.comp_def, Json.hexDigit]
  · rw [List.singleton_append, splitQuoted?.eq_def]
    split <;> simp_all

/-- A text in quotes is split off again. -/
theorem splitQuoted?_escape (text : String) (rest : List Char) :
    splitQuoted? (Json.escape text ++ '"' :: rest) = some (Json.escape text, rest) := by
  unfold Json.escape
  induction text.toList with
  | nil => rfl
  | cons c text ih =>
    rw [List.flatMap_cons, List.append_assoc, splitQuoted?_escapeChar, ih]
    rfl

/-- A quoted text is read back. -/
theorem reads_quoted (key : String) :
    (Json.Tree.parse? (Bytes.ofText (String.ofList (Json.quote key)))).bind Json.Tree.text? =
      some key := by
  have chars : (Json.Tree.text key).chars = Json.quote key := by simp [Json.Tree.chars]
  have read := Json.Tree.Transfers.text.parse?_bind key
  rwa [Json.Tree.render, chars] at read

/-! ## Objects -/

/-- Reads a property: its key, and the text from the comma or the bracket on that ends it.  The key
is in quotes, or it is the name of a variable whose value is meant. -/
def readProperty? : List Char → Option (String × List Char)
  | [] => none
  | '"' :: text => do
    let (inside, rest) ← splitQuoted? text
    let literal := String.ofList ('"' :: (inside ++ ['"']))
    let key ← (Json.Tree.parse? (Bytes.ofText literal)).bind Json.Tree.text?
    match rest.dropWhile Char.isWhitespace with
    | ':' :: value => (skipValue? ⟨.code, 0⟩ value).map fun rest => (key, rest)
    | _ => none
  | c :: text =>
    if ParamNames.isStart c then
      some (String.ofList (c :: text.takeWhile ParamNames.isPart),
        text.dropWhile ParamNames.isPart)
    else none

/-- Reads at most so many properties, and the bracket after them: their keys, and what follows the
bracket. -/
def readProperties? : Nat → List Char → Option (List String × List Char)
  | 0, _ => none
  | count + 1, text =>
    match text.dropWhile Char.isWhitespace with
    | '\x7d' :: rest => some ([], rest)
    | text => do
      let (key, rest) ← readProperty? text
      match rest.dropWhile Char.isWhitespace with
      | '\x7d' :: rest => some ([key], rest)
      | ',' :: rest => (readProperties? count rest).map fun (keys, rest) => (key :: keys, rest)
      | _ => none

/-- Reads an object: its keys, and what follows it. -/
def readObject? : List Char → Option (List String × List Char)
  | '\x7b' :: text => readProperties? text.length text
  | _ => none

/-- The text is read as a property with the key. -/
def Spells (key : String) (text : List Char) : Prop :=
  ∀ count rest, readProperties? (count + 1) (text ++ rest) =
    (readProperties? count rest).map fun (keys, rest) => (key :: keys, rest)

theorem readProperties?_blank {c : Char} (blank : c.isWhitespace = true) (count : Nat)
    (rest : List Char) : readProperties? count (c :: rest) = readProperties? count rest := by
  cases count with
  | zero => rfl
  | succ count => rw [readProperties?, readProperties?, List.dropWhile_cons_of_pos blank]

/-- After a property and a comma, and the end of the line, the other properties are read. -/
theorem readProperties?_of_readProperty? {c : Char} {text rest : List Char} {key : String}
    (visible : c.isWhitespace = false) (more : c ≠ '\x7d')
    (one : readProperty? (c :: text) = some (key, ',' :: '\n' :: rest)) (count : Nat) :
    readProperties? (count + 1) (c :: text) =
      (readProperties? count rest).map fun (keys, rest) => (key :: keys, rest) := by
  rw [readProperties?, List.dropWhile_cons_of_neg (by simp [visible])]
  split
  · rename_i ends
    exact absurd (List.cons.inj ends).1 more
  · rw [one]
    simp [readProperties?_blank (c := '\n') (by decide)]

/-- The name of a variable, on a line of its own. -/
theorem spells_memory : Spells "memory" "  memory,\n".toList := by
  intro count rest
  have one : readProperty? ('m' :: ("emory,\n".toList ++ rest)) =
      some ("memory", ',' :: '\n' :: rest) := by
    simp [readProperty?, ParamNames.isPart, ParamNames.isStart]
  show readProperties? (count + 1) (' ' :: ' ' :: 'm' :: ("emory,\n".toList ++ rest)) = _
  rw [readProperties?_blank (by decide), readProperties?_blank (by decide)]
  exact readProperties?_of_readProperty? (by decide) (by decide) one count

/-- The value of a property is a function: it ends behind the bracket after the function's body. -/
theorem skipValue?_function {params body : String} (params_contained : Contained params)
    (body_contained : Contained body) (rest : List Char) :
    skipValue? ⟨.code, 0⟩ (" function (".toList ++ (params.toList ++ (") \x7b\n".toList ++
      (body.toList ++ ("  \x7d,\n".toList ++ rest))))) = some (',' :: '\n' :: rest) := by
  have enter : ∀ text, skipValue? ⟨.code, 0⟩ (" function (".toList ++ text) =
      skipValue? (deeper ⟨.code, 0⟩) text := by
    intro text
    simp [skipValue?, step, isMark, deeper]
  have pass : ∀ text, skipValue? (deeper ⟨.code, 0⟩) (") \x7b\n".toList ++ text) =
      skipValue? (deeper ⟨.code, 0⟩) text := by
    intro text
    simp [skipValue?, step, isMark, deeper]
  have leave : skipValue? (deeper ⟨.code, 0⟩) ("  \x7d,\n".toList ++ rest) =
      some (',' :: '\n' :: rest) := by
    simp [skipValue?, step, isMark, deeper]
  rw [enter, skipValue?_deeper params_contained, pass, skipValue?_deeper body_contained, leave]

/-- A function under a quoted key. -/
theorem spells_function (key : String) {params body : String} (params_contained : Contained params)
    (body_contained : Contained body) :
    Spells key ("  " ++ String.ofList (Json.quote key) ++ ": function (" ++ params ++ ") \x7b\n"
      ++ body ++ "  \x7d,\n").toList := by
  intro count rest
  have reads := reads_quoted key
  rw [Json.quote] at reads
  have one : readProperty? ('"' :: (Json.escape key ++ '"' :: ':' :: (" function (".toList ++
      (params.toList ++ (") \x7b\n".toList ++ (body.toList ++ ("  \x7d,\n".toList ++ rest))))))) =
      some (key, ',' :: '\n' :: rest) := by
    simp only [readProperty?, splitQuoted?_escape, Option.bind_eq_bind, Option.bind_some, reads,
      List.dropWhile_cons_of_neg (by decide : ¬Char.isWhitespace ':' = true),
      skipValue?_function params_contained body_contained, Option.map_some]
  have text : ("  " ++ String.ofList (Json.quote key) ++ ": function (" ++ params ++ ") \x7b\n"
      ++ body ++ "  \x7d,\n").toList ++ rest =
        ' ' :: ' ' :: '"' :: (Json.escape key ++ '"' :: ':' :: (" function (".toList ++
          (params.toList ++ (") \x7b\n".toList ++ (body.toList ++
            ("  \x7d,\n".toList ++ rest)))))) := by
    simp [Json.quote]
  rw [text, readProperties?_blank (by decide), readProperties?_blank (by decide)]
  exact readProperties?_of_readProperty? (by decide) (by decide) one count

/-- A property takes up room. -/
theorem Spells.ne_nil {key : String} {text : List Char} (spells : Spells key text) : text ≠ [] := by
  rintro rfl
  have nothing := spells 0 ['\x7d']
  simp [readProperties?] at nothing

/-- Properties that are spelled one after the other are read one after the other. -/
theorem readProperties?_eq {properties : List (String × String)}
    (spelled : ∀ q ∈ properties, Spells q.1 q.2.toList) {count : Nat}
    (room : properties.length < count) (rest : List Char) :
    readProperties? count (properties.flatMap (·.2.toList) ++ '\x7d' :: rest) =
      some (properties.map (·.1), rest) := by
  induction properties generalizing count with
  | nil =>
    obtain ⟨count, rfl⟩ := Nat.exists_eq_add_of_lt room
    simp [readProperties?]
  | cons q properties ih =>
    obtain ⟨first, spelled⟩ := List.forall_mem_cons.1 spelled
    obtain ⟨count, rfl⟩ : ∃ k, count = k + 1 := ⟨count - 1, by omega⟩
    rw [List.flatMap_cons, List.append_assoc, first,
      ih spelled (Nat.lt_of_succ_lt_succ room)]
    rfl

/-- An object with properties one after the other has their keys. -/
theorem readObject?_eq {properties : List (String × String)}
    (spelled : ∀ q ∈ properties, Spells q.1 q.2.toList) :
    readObject? ("\x7b\n" ++ String.join (properties.map (·.2)) ++ "\x7d").toList =
      some (properties.map (·.1), []) := by
  have text : ("\x7b\n" ++ String.join (properties.map (·.2)) ++ "\x7d").toList =
      '\x7b' :: '\n' :: (properties.flatMap (·.2.toList) ++ ['\x7d']) := by
    simp [String.toList_join, List.flatMap_map]
  have room : properties.length ≤ (properties.flatMap (·.2.toList)).length := by
    have sum := List.length_le_sum_of_one_le (properties.map (·.2.toList.length))
      (List.forall_mem_map.2 fun q mem => List.length_pos_iff.2 (spelled q mem).ne_nil)
    rwa [List.length_map, ← List.length_flatMap] at sum
  rw [text, readObject?, readProperties?_blank (by decide)]
  refine readProperties?_eq spelled ?_ []
  rw [List.length_cons, List.length_append]
  omega

-- host code that closes the bracket around it can go on with a property of its own
example : readObject? ("\x7b\n  \"a\": function () \x7b\n"
      ++ "\x7d, \"b\": function () \x7b\n" ++ "  \x7d,\n\x7d").toList =
    some (["a", "b"], []) ∧ ¬Contained "\x7d, \"b\": function () \x7b\n" := by
  decide +kernel

end LoaderScript

end WasmForge

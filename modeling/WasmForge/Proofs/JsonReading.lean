import Mathlib
import WasmForge.Json.Record

/-!
# Reading JSON that was written

The text of a value is taken apart into the tokens it was put together from, and the tokens build
the value again.  Texts come back as they were written between their quotes, which spells the text.

* `WrittenChar`: the three ways in which a character is written in a string.
* `Lexer.Reads`: a piece of text that stands for given tokens wherever it comes between tokens.
* `Tree.parse?_render`: reading what `Tree.render` wrote.
-/

namespace WasmForge.Json

/-! ## Bytes of characters -/

/-- The UTF-8 bytes of a sequence of characters. -/
def utf8 (cs : List Char) : Bytes := cs.flatMap String.utf8EncodeChar

@[simp] theorem utf8_nil : utf8 [] = [] := rfl

@[simp] theorem utf8_cons (c : Char) (cs : List Char) :
    utf8 (c :: cs) = String.utf8EncodeChar c ++ utf8 cs := rfl

@[simp] theorem utf8_append (cs ds : List Char) : utf8 (cs ++ ds) = utf8 cs ++ utf8 ds :=
  List.flatMap_append

theorem ofText_ofList (cs : List Char) : Bytes.ofText (String.ofList cs) = utf8 cs := by
  simp [Bytes.ofText, utf8, String.toUTF8, List.utf8Encode]

theorem ofText_eq_utf8 (s : String) : Bytes.ofText s = utf8 s.toList := by
  rw [← ofText_ofList, String.ofList_toList]

theorem toNat_ofUInt8 (b : UInt8) : (Char.ofUInt8 b).toNat = b.toNat := rfl

theorem utf8EncodeChar_of_lt {c : Char} (ascii : c.toNat < 0x80) :
    String.utf8EncodeChar c = [UInt8.ofNat c.toNat] := by
  have small : c.val.toNat ≤ 127 := Nat.le_of_lt_succ ascii
  exact if_pos small

/-- All bytes of a character beyond ASCII are beyond ASCII. -/
theorem le_of_mem_utf8EncodeChar {c : Char} (beyond : 0x80 ≤ c.toNat) {b : UInt8}
    (mem : b ∈ String.utf8EncodeChar c) : 0x80 ≤ b.toNat := by
  have : ¬ c.val.toNat ≤ 127 := Nat.not_le_of_lt beyond
  simp only [String.utf8EncodeChar, this, if_false] at mem
  split at mem
  · simp only [List.mem_cons, List.not_mem_nil, or_false] at mem
    rcases mem with rfl | rfl <;> simp <;> omega
  · split at mem
    · simp only [List.mem_cons, List.not_mem_nil, or_false] at mem
      rcases mem with rfl | rfl | rfl <;> simp <;> omega
    · simp only [List.mem_cons, List.not_mem_nil, or_false] at mem
      rcases mem with rfl | rfl | rfl | rfl <;> simp <;> omega

theorem utf8_map_ofUInt8 {bs : Bytes} (ascii : ∀ b ∈ bs, b.toNat < 0x80) :
    utf8 (bs.map Char.ofUInt8) = bs := by
  induction bs with
  | nil => rfl
  | cons b bs ih =>
    rw [List.forall_mem_cons] at ascii
    have own : String.utf8EncodeChar (Char.ofUInt8 b) = [b] := by
      rw [utf8EncodeChar_of_lt (c := Char.ofUInt8 b) ascii.1, toNat_ofUInt8, UInt8.ofNat_toNat]
    rw [List.map_cons, utf8_cons, own, ih ascii.2, List.singleton_append]

/-! ## Characters in strings -/

/-- A byte that stands for itself in a string. -/
def IsBare (b : UInt8) : Prop := 0x20 ≤ b ∧ Char.ofUInt8 b ≠ '"' ∧ Char.ofUInt8 b ≠ '\\'

/-- The ways in which a character is written: as it is, with an escape of its own, or as a code
unit below 32. -/
inductive WrittenChar (c : Char) : Bytes → Prop
  /-- As it is. -/
  | bare (all : ∀ b ∈ String.utf8EncodeChar c, IsBare b) : WrittenChar c (String.utf8EncodeChar c)
  /-- With an escape of its own. -/
  | simple {a e : UInt8} (own : String.utf8EncodeChar c = [a]) (stands : simpleEscape? e = some a) :
    WrittenChar c [0x5C, e]
  /-- As a code unit. -/
  | unit {high low : UInt8} (control : c.toNat < 0x20)
    (first : hexValue? high = some (c.toNat / 16)) (second : hexValue? low = some (c.toNat % 16)) :
    WrittenChar c [0x5C, 0x75, 0x30, 0x30, high, low]

theorem isBare_of_mem {c : Char} (visible : 0x20 ≤ c.toNat) (quote : c ≠ '"') (slash : c ≠ '\\')
    {b : UInt8} (mem : b ∈ String.utf8EncodeChar c) : IsBare b := by
  by_cases ascii : c.toNat < 0x80
  · rw [utf8EncodeChar_of_lt ascii, List.mem_singleton] at mem
    have same : b.toNat = c.toNat := by
      rw [mem, UInt8.toNat_ofNat']
      omega
    have self : Char.ofUInt8 b = c := Char.toNat_inj.1 ((toNat_ofUInt8 b).trans same)
    refine ⟨UInt8.le_iff_toNat_le.2 ?_, self ▸ quote, self ▸ slash⟩
    rw [same]
    exact visible
  · have beyond := le_of_mem_utf8EncodeChar (Nat.le_of_not_lt ascii) mem
    have differs : ∀ d : Char, d.toNat < 0x80 → Char.ofUInt8 b ≠ d := by
      rintro d small rfl
      rw [toNat_ofUInt8] at small
      omega
    exact ⟨UInt8.le_iff_toNat_le.2 (Nat.le_trans (by decide) beyond), differs '"' (by decide),
      differs '\\' (by decide)⟩

/-- The digit for a number below sixteen has that value. -/
theorem exists_hexDigit {n : Nat} (small : n < 16) :
    ∃ b, String.utf8EncodeChar (hexDigit n) = [b] ∧ hexValue? b = some n := by
  have all : ∀ k : Fin 16,
      (String.utf8EncodeChar (hexDigit k)).map hexValue? = [some k.val] := by decide
  obtain ⟨b, single, value⟩ := List.map_eq_singleton_iff.1 (all ⟨n, small⟩)
  exact ⟨b, single, value⟩

theorem written_escapeChar (c : Char) : WrittenChar c (utf8 (escapeChar c)) := by
  unfold escapeChar
  split
  -- Seven characters have an escape of their own.
  iterate 7 exact .simple rfl rfl
  next quote slash _ _ _ _ _ =>
    split
    next control =>
      obtain ⟨high, highByte, first⟩ := exists_hexDigit (n := c.toNat / 16) (by omega)
      obtain ⟨low, lowByte, second⟩ := exists_hexDigit (n := c.toNat % 16) (by omega)
      rw [utf8_cons, utf8_cons, utf8_cons, utf8_cons, utf8_cons, utf8_cons, utf8_nil, highByte,
        lowByte]
      exact .unit control first second
    next visible =>
      rw [utf8_cons, utf8_nil, List.append_nil]
      exact .bare fun b mem => isBare_of_mem (Nat.le_of_not_lt visible) quote slash mem

/-- A byte with a value is a hexadecimal digit. -/
theorem isHexDigit_of_hexValue? {b : UInt8} {d : Nat} (value : hexValue? b = some d) :
    isHexDigit b = true := by
  unfold hexValue? at value
  unfold isHexDigit isDigit
  split at value
  · simp [*]
  · split at value
    · simp [*]
    · split at value
      · simp [*]
      · cases value

/-- A byte that stands for another after a backslash may follow one. -/
theorem isSimpleEscape_of_simpleEscape? {e a : UInt8} (stands : simpleEscape? e = some a) :
    Char.ofUInt8 e ≠ 'u' ∧ isSimpleEscape e = true := by
  unfold isSimpleEscape
  unfold simpleEscape? at stands
  split at stands
  iterate 8 next same => rw [same]; decide
  cases stands

/-- A machine that adds to what it has read, piece by piece, adds all pieces. -/
theorem foldlM_pieces {α σ : Type} {step : σ → UInt8 → Option σ} (state : Bytes → σ)
    {piece added : α → Bytes} {xs : List α}
    (each : ∀ x ∈ xs, ∀ read,
      (piece x).foldlM step (state read) = some (state ((added x).reverse ++ read)))
    (read : Bytes) :
    (xs.flatMap piece).foldlM step (state read) =
      some (state ((xs.flatMap added).reverse ++ read)) := by
  induction xs generalizing read with
  | nil => rfl
  | cons x xs ih =>
    rw [List.forall_mem_cons] at each
    rw [List.flatMap_cons, List.foldlM_append, each.1, Option.bind_eq_bind, Option.bind_some,
      ih each.2, List.flatMap_cons, List.reverse_append, List.append_assoc]

/-- A machine that keeps every byte of a sequence keeps the sequence. -/
theorem foldlM_kept {σ : Type} {step : σ → UInt8 → Option σ} (state : Bytes → σ) {bs : Bytes}
    (each : ∀ b ∈ bs, ∀ read, step (state read) b = some (state (b :: read))) (read : Bytes) :
    bs.foldlM step (state read) = some (state (bs.reverse ++ read)) := by
  have pieces : (bs.flatMap fun b => [b]).foldlM step (state read) =
      some (state ((bs.flatMap fun b => [b]).reverse ++ read)) :=
    foldlM_pieces state (fun b mem read => by simpa using each b mem read) read
  simpa using pieces

/-- In a string, a written character is kept as it stands. -/
theorem WrittenChar.lex {c : Char} {bs : Bytes} (written : WrittenChar c bs) (ts : List Token)
    (read : Bytes) :
    bs.foldlM Lexer.step ⟨ts, .text read⟩ = some ⟨ts, .text (bs.reverse ++ read)⟩ := by
  cases written with
  | bare all =>
    refine foldlM_kept (fun read => (⟨ts, .text read⟩ : Lexer)) ?_ read
    intro b mem read
    obtain ⟨visible, quote, slash⟩ := all b mem
    simp only [Lexer.step, if_neg (UInt8.not_lt.2 visible)]
  | @simple a e own stands =>
    obtain ⟨notUnit, simple⟩ := isSimpleEscape_of_simpleEscape? stands
    have step : Lexer.step ⟨ts, .escape (0x5C :: read)⟩ e =
        some ⟨ts, .text (e :: 0x5C :: read)⟩ := by
      simp only [Lexer.step, if_neg notUnit, simple, if_true]
    show (Lexer.step ⟨ts, .escape (0x5C :: read)⟩ e).bind some = _
    rw [step]
    rfl
  | @unit high low control first second =>
    have highDigit := isHexDigit_of_hexValue? first
    have lowDigit := isHexDigit_of_hexValue? second
    have step : Lexer.step ⟨ts, .hex 2 (0x30 :: 0x30 :: 0x75 :: 0x5C :: read)⟩ high =
        some ⟨ts, .hex 1 (high :: 0x30 :: 0x30 :: 0x75 :: 0x5C :: read)⟩ := by
      simp [Lexer.step, highDigit]
    have last : Lexer.step ⟨ts, .hex 1 (high :: 0x30 :: 0x30 :: 0x75 :: 0x5C :: read)⟩ low =
        some ⟨ts, .text (low :: high :: 0x30 :: 0x30 :: 0x75 :: 0x5C :: read)⟩ := by
      simp [Lexer.step, lowDigit]
    show (Lexer.step ⟨ts, .hex 2 (0x30 :: 0x30 :: 0x75 :: 0x5C :: read)⟩ high).bind
      (fun l => (l.step low).bind some) = _
    rw [step, Option.bind_some, last]
    rfl

/-- A written character spells the character. -/
theorem WrittenChar.spell {c : Char} {bs : Bytes} (written : WrittenChar c bs) (out : Bytes) :
    bs.foldlM TextReader.step ⟨out, .plain⟩ =
      some ⟨(String.utf8EncodeChar c).reverse ++ out, .plain⟩ := by
  cases written with
  | bare all =>
    refine foldlM_kept (fun out => (⟨out, .plain⟩ : TextReader)) ?_ out
    intro b mem out
    exact if_neg (all b mem).2.2
  | @simple a e own stands =>
    have step : TextReader.step ⟨out, .escape⟩ e = some ⟨a :: out, .plain⟩ := by
      simp only [TextReader.step, if_neg (isSimpleEscape_of_simpleEscape? stands).1, stands,
        Option.map_some]
    show (TextReader.step ⟨out, .escape⟩ e).bind some = _
    rw [step, own]
    rfl
  | @unit high low control first second =>
    have step : TextReader.step ⟨out, .unit 2 0 none⟩ high =
        some ⟨out, .unit 1 (c.toNat / 16) none⟩ := by
      simp [TextReader.step, first]
    have value : 16 * (c.toNat / 16) + c.toNat % 16 = c.toNat := Nat.div_add_mod ..
    have last : TextReader.step ⟨out, .unit 1 (c.toNat / 16) none⟩ low =
        some (TextReader.spell out c.toNat) := by
      simp only [TextReader.step, second, value, TextReader.finishUnit]
      rw [if_pos (Nat.le_refl 1), if_neg (by omega), if_neg (by omega)]
    show (TextReader.step ⟨out, .unit 2 0 none⟩ high).bind
      (fun r => (r.step low).bind some) = _
    rw [step, Option.bind_some, last, TextReader.spell, Char.ofNat_toNat, Option.bind_some]

/-- What stands between the quotes of a written text. -/
def writtenText (s : String) : Bytes := utf8 (escape s)

theorem writtenText_eq_flatMap (s : String) :
    writtenText s = s.toList.flatMap fun c => utf8 (escapeChar c) := by
  rw [writtenText, escape, utf8, List.flatMap_assoc]
  rfl

/-- What stands between the quotes of a written text spells the text. -/
@[simp] theorem decodeText?_writtenText (s : String) : decodeText? (writtenText s) = some s := by
  have spelled : (writtenText s).foldlM TextReader.step ⟨[], .plain⟩ =
      some ⟨(Bytes.ofText s).reverse ++ [], .plain⟩ := by
    rw [writtenText_eq_flatMap, ofText_eq_utf8, utf8]
    exact foldlM_pieces (fun out => (⟨out, .plain⟩ : TextReader))
      (fun c _ out => (written_escapeChar c).spell out) []
  have bytes : unescape? (writtenText s) = some (Bytes.ofText s) := by
    rw [unescape?, spelled]
    simp only [List.append_nil, List.reverse_reverse]
  rw [decodeText?, bytes, Option.bind_some, Bytes.toText?_ofText]

/-! ## Numbers -/

namespace Tree

/-- The bytes of a natural number. -/
def digits (n : Nat) : Bytes := Bytes.ofText (String.ofList (Nat.toDigits 10 n))

/-- The byte of a digit. -/
def digit (d : Nat) : UInt8 := UInt8.ofNat (0x30 + d)

theorem utf8EncodeChar_digitChar {d : Nat} (small : d < 10) :
    String.utf8EncodeChar (Nat.digitChar d) = [digit d] := by
  have all : ∀ k : Fin 10, String.utf8EncodeChar (Nat.digitChar k) = [digit k] := by decide
  exact all ⟨d, small⟩

theorem digits_of_lt {n : Nat} (small : n < 10) : digits n = [digit n] := by
  rw [digits, Nat.toDigits_of_lt_base small, ofText_ofList, utf8_cons, utf8_nil,
    utf8EncodeChar_digitChar small, List.append_nil]

theorem digits_of_le {n : Nat} (large : 10 ≤ n) :
    digits n = digits (n / 10) ++ [digit (n % 10)] := by
  have last : n % 10 < 10 := Nat.mod_lt _ (by decide)
  rw [digits, Nat.toDigits_of_base_le (by decide) large, ofText_ofList, utf8_append, utf8_cons,
    utf8_nil, utf8EncodeChar_digitChar last, List.append_nil, digits, ofText_ofList]

/-- What holds of one digit, and with one more digit at the end, holds of all numbers. -/
theorem decimal_induction {motive : Nat → Prop} (one : ∀ n < 10, motive n)
    (more : ∀ n, 10 ≤ n → motive (n / 10) → motive n) (n : Nat) : motive n := by
  induction n using Nat.strongRecOn with
  | ind n ih =>
    by_cases small : n < 10
    · exact one n small
    · exact more n (Nat.le_of_not_lt small) (ih (n / 10) (by omega))

theorem ofUInt8_digit {d : Nat} (small : d < 10) : Char.ofUInt8 (digit d) = Nat.digitChar d := by
  have all : ∀ k : Fin 10, Char.ofUInt8 (digit k) = Nat.digitChar k := by decide
  exact all ⟨d, small⟩

/-- A number is written in decimal digits. -/
theorem chars_ofNat (n : Nat) : (ofNat n).chars = (toString n).toList := by
  have written : (digits n).map Char.ofUInt8 = Nat.toDigits 10 n := by
    induction n using decimal_induction with
    | one n small =>
      rw [digits_of_lt small, Nat.toDigits_of_lt_base small, List.map_singleton,
        ofUInt8_digit small]
    | more n large ih =>
      rw [digits_of_le large, Nat.toDigits_of_base_le (by decide) large, List.map_append, ih,
        List.map_singleton, ofUInt8_digit (Nat.mod_lt _ (by decide))]
  rw [ofNat, chars]
  exact written.trans (String.toList_ofList ..).symm

theorem toNat_digit {d : Nat} (small : d < 10) : (digit d).toNat = 0x30 + d := by
  rw [digit, UInt8.toNat_ofNat']
  omega

theorem isDigit_digit {d : Nat} (small : d < 10) : isDigit (digit d) = true := by
  have value := toNat_digit small
  simp only [isDigit, Bool.and_eq_true, decide_eq_true_eq, UInt8.le_iff_toNat_le, value]
  exact ⟨Nat.le_add_right .., show 0x30 + d ≤ 0x39 by omega⟩

theorem all_isDigit_digits (n : Nat) : (digits n).all isDigit = true := by
  induction n using decimal_induction with
  | one n small => simp [digits_of_lt small, isDigit_digit small]
  | more n large ih =>
    have last : n % 10 < 10 := Nat.mod_lt _ (by decide)
    simp [digits_of_le large, ih, isDigit_digit last]

/-- The digits of a number spell the number. -/
theorem ofDigits_digits (n : Nat) : ofDigits (digits n) = n := by
  induction n using decimal_induction with
  | one n small =>
    rw [digits_of_lt small]
    simp [ofDigits, toNat_digit small]
  | more n large ih =>
    have last : n % 10 < 10 := Nat.mod_lt _ (by decide)
    rw [ofDigits] at ih
    rw [digits_of_le large, ofDigits, List.foldl_append, ih]
    simp only [List.foldl_cons, List.foldl_nil, toNat_digit last]
    omega

/-- A written number is read as the number. -/
@[simp] theorem u32?_ofNat (n : UInt32) : (ofNat n.toNat).u32? = some n := by
  have value := ofDigits_digits n.toNat
  have fits : n.toNat < UInt32.size := n.toNat_lt_size
  show u32? (.number (digits n.toNat)) = _
  rw [u32?, value, if_pos ⟨all_isDigit_digits _, fits⟩]
  simp

end Tree

/-! ## Tokens -/

namespace Lexer

/-- The machine has read these tokens, last first, and is not amid one, unless it is a whole number
that may go on. -/
inductive Settled (ts : List Token) : Lexer → Prop
  /-- Between tokens. -/
  | idle : Settled ts ⟨ts, .idle⟩
  /-- In a whole number. -/
  | number {phase : NumberPhase} {read : Bytes} {before : List Token}
    (whole : phase = .zero ∨ phase = .whole) (last : ts = .number read.reverse :: before) :
    Settled ts ⟨before, .number phase read⟩

/-- The character is a token by itself, also right after a whole number. -/
def Marks (c : Char) (t : Token) : Prop :=
  ∃ b, String.utf8EncodeChar c = [b] ∧ NumberPhase.next b .zero = none ∧
    NumberPhase.next b .whole = none ∧ ∀ ts, between ts b = some ⟨t :: ts, .idle⟩

theorem Settled.finish {ts : List Token} {l : Lexer} (settled : l.Settled ts) :
    l.finish = some ts.reverse := by
  cases settled with
  | idle => rfl
  | number whole last =>
    rcases whole with rfl | rfl <;> rw [last] <;> rfl

theorem Settled.mark {ts : List Token} {l : Lexer} {c : Char} {t : Token} (settled : l.Settled ts)
    (marks : Marks c t) : (String.utf8EncodeChar c).foldlM step l = some ⟨t :: ts, .idle⟩ := by
  obtain ⟨b, single, zero, whole, between⟩ := marks
  have step : l.step b = some ⟨t :: ts, .idle⟩ := by
    cases settled with
    | idle => exact between ts
    | number phase last =>
      rcases phase with rfl | rfl
      · simp only [Lexer.step, zero, last, ← between]
        rfl
      · simp only [Lexer.step, whole, last, ← between]
        rfl
  simp [single, step]

/-- Between tokens, the text is read as these tokens. -/
def Reads (cs : List Char) (xs : List Token) : Prop :=
  ∀ ts, ∃ l, (utf8 cs).foldlM step ⟨ts, .idle⟩ = some l ∧ l.Settled (xs.reverse ++ ts)

theorem Reads.tokens? {cs : List Char} {xs : List Token} (reads : Reads cs xs) :
    tokens? (utf8 cs) = some xs := by
  obtain ⟨l, run, settled⟩ := reads []
  rw [Json.tokens?, start, run, Option.bind_some, settled.finish, List.append_nil,
    List.reverse_reverse]

theorem reads_nil : Reads [] [] := fun _ => ⟨_, rfl, .idle⟩

/-- Two pieces with a mark between them. -/
theorem Reads.join {cs ds : List Char} {c : Char} {xs ys : List Token} {t : Token}
    (first : Reads cs xs) (marks : Marks c t) (rest : Reads ds ys) :
    Reads (cs ++ c :: ds) (xs ++ t :: ys) := by
  intro ts
  obtain ⟨l, run, settled⟩ := first ts
  obtain ⟨l', run', settled'⟩ := rest (t :: (xs.reverse ++ ts))
  refine ⟨l', ?_, by simpa using settled'⟩
  rw [utf8_append, utf8_cons, List.foldlM_append, run, Option.bind_eq_bind, Option.bind_some,
    List.foldlM_append, settled.mark marks, Option.bind_eq_bind, Option.bind_some, run']

theorem reads_quote (s : String) : Reads (quote s) [.text (writtenText s)] := by
  intro ts
  refine ⟨⟨.text (writtenText s) :: ts, .idle⟩, ?_, .idle⟩
  have kept : (writtenText s).foldlM step ⟨ts, .text []⟩ =
      some ⟨ts, .text ((writtenText s).reverse ++ [])⟩ := by
    rw [writtenText_eq_flatMap]
    exact foldlM_pieces (fun read => (⟨ts, .text read⟩ : Lexer))
      (fun c _ read => (written_escapeChar c).lex ts read) []
  show (utf8 (escape s ++ ['"'])).foldlM step ⟨ts, .text []⟩ = _
  rw [utf8_append, List.foldlM_append, ← writtenText, kept]
  show some (⟨.text ((writtenText s).reverse ++ []).reverse :: ts, .idle⟩ : Lexer) = _
  rw [List.append_nil, List.reverse_reverse]

/-- The digits of a number stay in one number: a first digit of zero would end it, but only zero
itself starts with one. -/
theorem lex_digits (n : Nat) (ts : List Token) :
    (Tree.digits n).foldlM step ⟨ts, .idle⟩ =
      some ⟨ts, .number (if n = 0 then .zero else .whole) (Tree.digits n).reverse⟩ := by
  induction n using Tree.decimal_induction with
  | one n small =>
    rw [Tree.digits_of_lt small]
    interval_cases n <;> rfl
  | more n large ih =>
    have last : isDigit (Tree.digit (n % 10)) = true :=
      Tree.isDigit_digit (Nat.mod_lt _ (by decide))
    rw [Tree.digits_of_le large, List.foldlM_append, ih, if_neg (by omega), if_neg (by omega)]
    simp [step, NumberPhase.next, last]

theorem reads_digits (n : Nat) :
    Reads ((Tree.digits n).map Char.ofUInt8) [.number (Tree.digits n)] := by
  intro ts
  have ascii : ∀ b ∈ Tree.digits n, b.toNat < 0x80 := by
    intro b mem
    have digit := List.all_eq_true.1 (Tree.all_isDigit_digits n) b mem
    simp only [isDigit, Bool.and_eq_true, decide_eq_true_eq, UInt8.le_iff_toNat_le] at digit
    exact Nat.lt_of_le_of_lt digit.2 (by decide)
  rw [utf8_map_ofUInt8 ascii]
  refine ⟨_, lex_digits n ts, .number ?_ (by simp)⟩
  by_cases zero : n = 0 <;> simp [zero]

end Lexer

/-! ## Values -/

namespace Tree

/-- The value whose texts stand as written. -/
def written : Tree String → Tree Bytes
  | .null => .null
  | .bool b => .bool b
  | .number w => .number w
  | .text s => .text (writtenText s)
  | .array items => .array (items.map written)
  | .object members => .object (members.map fun m => (writtenText m.1, m.2.written))
  decreasing_by
    · exact Nat.lt_of_lt_of_le (List.sizeOf_lt_of_mem ‹_›) (by simp)
    · have inside := List.sizeOf_lt_of_mem ‹_ ∈ members›
      cases m
      simp only [Prod.mk.sizeOf_spec, object.sizeOf_spec] at inside ⊢
      omega

/-- The numbers in the value are natural numbers. -/
inductive Regular : Tree String → Prop
  | null : Regular .null
  | bool (b : Bool) : Regular (.bool b)
  | number (n : Nat) : Regular (.ofNat n)
  | text (s : String) : Regular (.text s)
  | array {items : List (Tree String)} (all : ∀ v ∈ items, Regular v) : Regular (.array items)
  | object {members : List (String × Tree String)} (all : ∀ m ∈ members, Regular m.2) :
    Regular (.object members)

/-- Where a value may start, the tokens make up the value. -/
def Builds (xs : List Token) (v : Tree Bytes) : Prop :=
  ∀ frames awaiting, awaiting = .value ∨ awaiting = .firstItem →
    xs.foldlM Builder.step ⟨frames, awaiting⟩ = Builder.complete v frames

/-- The text of the value is read as tokens that make up what was written. -/
def Carried (v : Tree String) : Prop := ∃ xs, Lexer.Reads v.chars xs ∧ Builds xs v.written

theorem marks_comma : Lexer.Marks ',' .comma := ⟨_, rfl, rfl, rfl, fun _ => rfl⟩

theorem marks_colon : Lexer.Marks ':' .colon := ⟨_, rfl, rfl, rfl, fun _ => rfl⟩

/-- The items of an array are read up to where the array goes on or ends. -/
theorem exists_items {items : List (Tree String)} (each : ∀ v ∈ items, v.Carried)
    (more : items ≠ []) :
    ∃ xs, Lexer.Reads (itemChars items) xs ∧
      ∀ done outer awaiting, awaiting = .value ∨ awaiting = .firstItem →
        xs.foldlM Builder.step ⟨.array done :: outer, awaiting⟩ =
          some ⟨.array ((items.map written).reverse ++ done) :: outer, .separator⟩ := by
  induction items with
  | nil => contradiction
  | cons v rest ih =>
    rw [List.forall_mem_cons] at each
    obtain ⟨⟨xs, reads, builds⟩, each⟩ := each
    by_cases last : rest = []
    · subst last
      exact ⟨xs, by rwa [itemChars], fun done outer awaiting free => builds _ _ free⟩
    · obtain ⟨ys, readsRest, buildsRest⟩ := ih each last
      refine ⟨xs ++ .comma :: ys, ?_, ?_⟩
      · rw [itemChars.eq_3 _ _ last]
        exact reads.join marks_comma readsRest
      · intro done outer awaiting free
        rw [List.foldlM_append, builds _ _ free]
        show ys.foldlM Builder.step ⟨.array (v.written :: done) :: outer, .value⟩ = _
        rw [buildsRest _ _ _ (.inl rfl), List.map_cons, List.reverse_cons, List.append_assoc,
          List.singleton_append]

/-- The members of an object are read up to where the object goes on or ends. -/
theorem exists_members {members : List (String × Tree String)}
    (each : ∀ m ∈ members, m.2.Carried) (more : members ≠ []) :
    ∃ xs, Lexer.Reads (memberChars members) xs ∧
      ∀ done outer awaiting, awaiting = .key ∨ awaiting = .firstKey →
        xs.foldlM Builder.step ⟨.object done :: outer, awaiting⟩ =
          some ⟨.object ((members.map fun m => (writtenText m.1, m.2.written)).reverse ++ done) ::
            outer, .separator⟩ := by
  induction members with
  | nil => contradiction
  | cons m rest ih =>
    obtain ⟨k, v⟩ := m
    rw [List.forall_mem_cons] at each
    obtain ⟨⟨xs, reads, builds⟩, each⟩ := each
    -- The key and the colon leave the object waiting for the value.
    have keyed : ∀ (ys : List Token) done outer awaiting, awaiting = .key ∨ awaiting = .firstKey →
        (.text (writtenText k) :: .colon :: (xs ++ ys)).foldlM Builder.step
          ⟨.object done :: outer, awaiting⟩ =
        ys.foldlM Builder.step
          ⟨.object ((writtenText k, v.written) :: done) :: outer, .separator⟩ := by
      intro ys done outer awaiting free
      have opened : Builder.step ⟨.object done :: outer, awaiting⟩ (.text (writtenText k)) =
          some ⟨.member done (writtenText k) :: outer, .colon⟩ := by
        rcases free with rfl | rfl <;> rfl
      rw [List.foldlM_cons, opened]
      show (xs ++ ys).foldlM Builder.step ⟨.member done (writtenText k) :: outer, .value⟩ = _
      rw [List.foldlM_append, builds _ _ (.inl rfl)]
      rfl
    by_cases last : rest = []
    · subst last
      refine ⟨.text (writtenText k) :: .colon :: (xs ++ []), ?_, keyed []⟩
      rw [memberChars, List.append_nil]
      exact (Lexer.reads_quote k).join marks_colon reads
    · obtain ⟨ys, readsRest, buildsRest⟩ := ih each last
      refine ⟨.text (writtenText k) :: .colon :: (xs ++ .comma :: ys), ?_, ?_⟩
      · rw [memberChars.eq_3 _ _ _ last, List.append_assoc, List.cons_append]
        exact (Lexer.reads_quote k).join marks_colon (reads.join marks_comma readsRest)
      · intro done outer awaiting free
        rw [keyed _ _ _ _ free]
        show ys.foldlM Builder.step
          ⟨.object ((writtenText k, v.written) :: done) :: outer, .key⟩ = _
        rw [buildsRest _ _ _ (.inl rfl), List.map_cons, List.reverse_cons, List.append_assoc,
          List.singleton_append]

theorem carried_array {items : List (Tree String)} (each : ∀ v ∈ items, v.Carried) :
    (Tree.array items).Carried := by
  have opens : Lexer.Marks '[' .openArray := ⟨_, rfl, rfl, rfl, fun _ => rfl⟩
  have closes : Lexer.Marks ']' .closeArray := ⟨_, rfl, rfl, rfl, fun _ => rfl⟩
  obtain ⟨xs, reads, builds⟩ : ∃ xs, Lexer.Reads (itemChars items) xs ∧ ∀ outer,
      (xs ++ [Token.closeArray]).foldlM Builder.step ⟨.array [] :: outer, .firstItem⟩ =
        Builder.complete (.array (items.map written)) outer := by
    by_cases none : items = []
    · subst none
      exact ⟨[], Lexer.reads_nil, by simp [Builder.step, Builder.separate]⟩
    · obtain ⟨xs, reads, builds⟩ := exists_items each none
      exact ⟨xs, reads, by simp [List.foldlM_append, builds, Builder.step, Builder.separate]⟩
  refine ⟨.openArray :: (xs ++ [.closeArray]), ?_, ?_⟩
  · rw [chars]
    exact Lexer.reads_nil.join opens (reads.join closes Lexer.reads_nil)
  · rintro frames _ (rfl | rfl) <;> rw [written, ← builds] <;> rfl

theorem carried_object {members : List (String × Tree String)}
    (each : ∀ m ∈ members, m.2.Carried) : (Tree.object members).Carried := by
  have opens : Lexer.Marks '\x7b' .openObject := ⟨_, rfl, rfl, rfl, fun _ => rfl⟩
  have closes : Lexer.Marks '\x7d' .closeObject := ⟨_, rfl, rfl, rfl, fun _ => rfl⟩
  obtain ⟨xs, reads, builds⟩ : ∃ xs, Lexer.Reads (memberChars members) xs ∧ ∀ outer,
      (xs ++ [Token.closeObject]).foldlM Builder.step ⟨.object [] :: outer, .firstKey⟩ =
        Builder.complete (.object (members.map fun m => (writtenText m.1, m.2.written))) outer := by
    by_cases none : members = []
    · subst none
      exact ⟨[], Lexer.reads_nil, by simp [Builder.step, Builder.separate]⟩
    · obtain ⟨xs, reads, builds⟩ := exists_members each none
      exact ⟨xs, reads, by simp [List.foldlM_append, builds, Builder.step, Builder.separate]⟩
  refine ⟨.openObject :: (xs ++ [.closeObject]), ?_, ?_⟩
  · rw [chars]
    exact Lexer.reads_nil.join opens (reads.join closes Lexer.reads_nil)
  · rintro frames _ (rfl | rfl) <;> rw [written, ← builds] <;> rfl

theorem Regular.carried {v : Tree String} (regular : v.Regular) : v.Carried := by
  have word : ∀ {v : Tree String} {t : Token}, Lexer.Reads v.chars [t] →
      (∀ frames, Builder.beginValue frames t = Builder.complete v.written frames) →
      t ≠ .closeArray → v.Carried := by
    intro v t reads begins value
    refine ⟨[t], reads, ?_⟩
    rintro frames _ (rfl | rfl)
    · simp [Builder.step, begins]
    · simp [Builder.step, begins, value]
  induction regular with
  | null =>
    refine word (t := .null) (fun ts => ⟨_, ?_, .idle⟩) ?_ (by simp)
    · rw [chars]
      rfl
    · simp [written, Builder.beginValue]
  | bool b =>
    refine word (t := .bool b) (fun ts => ⟨_, ?_, .idle⟩) ?_ (by simp)
    · cases b <;> rw [chars] <;> rfl
    · simp [written, Builder.beginValue]
  | number n =>
    refine word (t := .number (digits n)) ?_ ?_ (by simp)
    · rw [ofNat, chars]
      exact Lexer.reads_digits n
    · simp [ofNat, digits, written, Builder.beginValue]
  | text s =>
    refine word (t := .text (writtenText s)) ?_ ?_ (by simp)
    · rw [chars]
      exact Lexer.reads_quote s
    · simp [written, Builder.beginValue]
  | array all ih => exact carried_array ih
  | object all ih => exact carried_object ih

/-- Reading the text of a value gives the value, with its texts as they were written. -/
theorem parse?_render {v : Tree String} (regular : v.Regular) :
    parse? (Bytes.ofText v.render) = some v.written := by
  obtain ⟨xs, reads, builds⟩ := regular.carried
  have built : xs.foldlM Builder.step Builder.start = some ⟨[], .nothing v.written⟩ :=
    builds [] _ (.inl rfl)
  rw [parse?, render, ofText_ofList, reads.tokens?, Option.bind_some, ofTokens?, built]

end Tree

end WasmForge.Json

import Mathlib
import WasmForge.Module.Decode
import WasmForge.Module.Encode

/-!
# Reading undoes writing

Every shape of the binary format has its size or its numbers in front of it, in 32 bits.  What was
written is therefore read back as long as these numbers fit, and it is refused otherwise: there is
no third way.  `Reader.ReadsWhen` says so for one reader and one value, and it is kept up by reading
in a row, so that the statement about a whole body (`Code.decode_encode`) is put together from the
statements about its parts.
-/

namespace WasmForge

namespace Leb128

/-! ## Integers that are too large -/

/-- A number that the width does not hold is refused. -/
theorem decodeNat_encodeNat_of_le (width n : Nat) (h : 2 ^ width ≤ n) (rest : List UInt8) :
    decodeNat width (encodeNat n ++ rest) = none := by
  induction n using Nat.strongRecOn generalizing width with
  | ind n ih =>
    rw [encodeNat]
    split
    · next small =>
      have byte := toNat_toUInt8 (by omega : n < 256)
      simp only [List.cons_append, decodeNat, byte, Nat.pow_eq]
      rw [if_pos small, if_neg (by omega)]
    · next big =>
      have byte := toNat_toUInt8 (by omega : n % 128 + 128 < 256)
      simp only [List.cons_append, decodeNat, byte, Nat.pow_eq]
      rw [if_neg (by omega)]
      split
      · next wide =>
        have split : 2 ^ width = 128 * 2 ^ (width - 7) := two_pow_add_seven (by omega)
        rw [ih (n / 128) (by omega) (width - 7) (by omega)]
      · rfl

/-- A number that the width does not hold is refused. -/
theorem decodeInt_encodeInt_of_le (width : Nat) (z : Int) (h : (2 ^ (width - 1) : Nat) ≤ z)
    (rest : List UInt8) : decodeInt width (encodeInt z ++ rest) = none := by
  induction hn : z.natAbs using Nat.strongRecOn generalizing z width with
  | ind n ih =>
    have pos : 0 < 2 ^ (width - 1) := Nat.two_pow_pos _
    rw [encodeInt]
    split
    · next small =>
      have byte := toNat_toUInt8 (by omega : (z % 128).toNat < 256)
      simp only [List.cons_append, decodeInt, byte, Nat.pow_eq]
      rw [if_pos (by omega), if_neg (by omega)]
    · next big =>
      have byte := toNat_toUInt8 (by omega : (z % 128).toNat + 128 < 256)
      simp only [List.cons_append, decodeInt, byte]
      rw [if_neg (by omega), if_neg (by omega)]
      split
      · next wide =>
        have split : 2 ^ (width - 1) = 128 * 2 ^ (width - 7 - 1) := two_pow_add_seven (by omega)
        rw [ih (z / 128).natAbs (by omega) (width - 7) (z / 128) (by omega) rfl]
      · rfl

end Leb128

namespace Reader

variable {α β : Type}

/-! ## Reading what was written, when it fits -/

/-- The reader takes exactly these bytes for the value if the condition holds, and refuses them if
it does not, whatever follows. -/
def ReadsWhen (fits : Prop) (r : Reader α) (bs : Bytes) (a : α) : Prop :=
  ∀ rest, (fits → r (bs ++ rest) = some (a, rest)) ∧ (¬fits → r (bs ++ rest) = none)

theorem Reads.when {r : Reader α} {bs : Bytes} {a : α} (reads : Reads r bs a) :
    ReadsWhen True r bs a :=
  fun rest => ⟨fun _ => reads rest, fun h => absurd trivial h⟩

theorem ReadsWhen.congr {P Q : Prop} {r : Reader α} {bs : Bytes} {a : α}
    (reads : ReadsWhen P r bs a) (h : P ↔ Q) : ReadsWhen Q r bs a :=
  fun rest => ⟨fun q => (reads rest).1 (h.2 q), fun q => (reads rest).2 (mt h.1 q)⟩

/-- Readers in a row read bytes in a row, when all parts fit. -/
theorem ReadsWhen.bind {P Q : Prop} {r : Reader α} {f : α → Reader β} {bs cs : Bytes} {a : α}
    {b : β} (first : ReadsWhen P r bs a) (second : ReadsWhen Q (f a) cs b) :
    ReadsWhen (P ∧ Q) (r >>= f) (bs ++ cs) b := by
  intro rest
  have row : (r >>= f) (bs ++ cs ++ rest) = (r (bs ++ (cs ++ rest))).bind fun x => f x.1 x.2 := by
    rw [← List.append_assoc]
    rfl
  rw [row]
  constructor
  · rintro ⟨hP, hQ⟩
    rw [(first _).1 hP]
    exact (second rest).1 hQ
  · intro h
    by_cases hP : P
    · rw [(first _).1 hP]
      exact (second rest).2 fun hQ => h ⟨hP, hQ⟩
    · rw [(first _).2 hP]
      rfl

theorem ReadsWhen.map {P : Prop} {r : Reader α} {bs : Bytes} {a : α} (reads : ReadsWhen P r bs a)
    (g : α → β) : ReadsWhen P (r >>= fun x => pure (g x)) bs (g a) := by
  have row := reads.bind (f := fun x => pure (g x)) (reads_pure (g a)).when
  rw [List.append_nil] at row
  exact row.congr (and_iff_left trivial)

theorem ReadsWhen.map₂ {γ : Type} {P Q : Prop} {r : Reader α} {q : Reader β} {bs cs : Bytes} {a : α}
    {b : β} (first : ReadsWhen P r bs a) (second : ReadsWhen Q q cs b) (g : α → β → γ) :
    ReadsWhen (P ∧ Q) (r >>= fun x => q >>= fun y => pure (g x y)) (bs ++ cs) (g a b) :=
  first.bind (f := fun x => q >>= fun y => pure (g x y)) (second.map (g a))

/-- A reader that starts with a look at one byte. -/
theorem ReadsWhen.cons {P : Prop} {f : UInt8 → Reader α} {b : UInt8} {bs : Bytes} {a : α}
    (reads : ReadsWhen P (f b) bs a) : ReadsWhen P (byte >>= f) (b :: bs) a :=
  ((reads_byte b).when.bind reads).congr (and_iff_right trivial)

theorem readsWhen_u32 (n : Nat) : ReadsWhen (n < 2 ^ 32) u32 (Bytes.u32 n) n :=
  fun rest => ⟨fun h => reads_u32 h rest,
    fun h => Leb128.decodeNat_encodeNat_of_le 32 n (Nat.not_lt.1 h) rest⟩

theorem readsWhen_sized (bs : Bytes) :
    ReadsWhen (bs.length < 2 ^ 32) sized (Bytes.sized bs) bs :=
  ((readsWhen_u32 bs.length).bind (reads_take bs).when).congr (and_iff_left trivial)

/-- A name is read back when it is not too long. -/
theorem readsWhen_name (s : String) :
    ReadsWhen ((Bytes.ofText s).length ≤ maxNameSize) name (Bytes.name s) s := by
  intro rest
  have row : name (Bytes.name s ++ rest) = (sized (Bytes.name s ++ rest)).bind fun x =>
      (if x.1.length ≤ maxNameSize then (Bytes.toText? x.1 : Reader String) else failure) x.2 := rfl
  rw [row]
  constructor
  · intro short
    have fits : (Bytes.ofText s).length < 2 ^ 32 := by
      unfold maxNameSize at short
      omega
    rw [Bytes.name, (readsWhen_sized (Bytes.ofText s) rest).1 fits, Option.bind_some, if_pos short,
      Bytes.toText?_ofText]
    rfl
  · intro long
    by_cases fits : (Bytes.ofText s).length < 2 ^ 32
    · rw [Bytes.name, (readsWhen_sized (Bytes.ofText s) rest).1 fits, Option.bind_some, if_neg long]
      rfl
    · rw [Bytes.name, (readsWhen_sized (Bytes.ofText s) rest).2 fits]
      rfl

/-- Items in a row are read from their bytes in a row, when they all fit. -/
theorem readsWhen_times {item : Reader α} {fits : α → Prop} {encode : α → Bytes} {as : List α}
    (h : ∀ a ∈ as, ReadsWhen (fits a) item (encode a) a) :
    ReadsWhen (∀ a ∈ as, fits a) (times item as.length) (as.map encode).flatten as := by
  induction as with
  | nil => exact (reads_pure []).when.congr (by simp)
  | cons a as ih =>
    have tail := ih fun b hb => h b (List.mem_cons_of_mem a hb)
    have row := (h a List.mem_cons_self).bind (f := fun x => times item as.length >>= fun rest =>
      pure (x :: rest)) (tail.map (a :: ·))
    exact row.congr (by simp)

/-- A vector is read from its written form, when its length and its items fit. -/
theorem readsWhen_vector {item : Reader α} {fits : α → Prop} {encode : α → Bytes} {as : List α}
    (h : ∀ a ∈ as, ReadsWhen (fits a) item (encode a) a) :
    ReadsWhen (as.length < 2 ^ 32 ∧ ∀ a ∈ as, fits a) (vector item)
      (Bytes.vector (as.map encode)) as := by
  have count : ReadsWhen (as.length < 2 ^ 32) u32 (Bytes.u32 (as.map encode).length) as.length := by
    rw [List.length_map]
    exact readsWhen_u32 as.length
  exact count.bind (readsWhen_times h)

/-- Reading to the last byte takes back what was written. -/
theorem ReadsWhen.whole {P : Prop} {r : Reader α} {bs : Bytes} {a : α} (reads : ReadsWhen P r bs a)
    {b : α} : whole r bs = some b ↔ P ∧ b = a := by
  have h := reads []
  rw [List.append_nil] at h
  unfold Reader.whole
  by_cases hP : P
  · rw [h.1 hP]
    simp [hP, eq_comm]
  · rw [h.2 hP]
    simp [hP]

/-- Items until the bytes run out are read back, when they all fit.  Every item takes at least one
byte, so the number of bytes bounds the number of items. -/
theorem upTo_eq_some {item : Reader α} {fits : α → Prop} {encode : α → Bytes} {as cs : List α}
    (h : ∀ a ∈ as, ReadsWhen (fits a) item (encode a) a) (nonempty : ∀ a ∈ as, encode a ≠ [])
    {fuel : Nat} (enough : (as.map encode).flatten.length ≤ fuel) :
    upTo item fuel (as.map encode).flatten = some cs ↔ (∀ a ∈ as, fits a) ∧ cs = as := by
  induction as generalizing cs fuel with
  | nil => simp [upTo, eq_comm]
  | cons a as ih =>
    obtain ⟨b, bs, first⟩ := List.exists_cons_of_ne_nil (nonempty a List.mem_cons_self)
    rw [List.map_cons, List.flatten_cons] at enough ⊢
    rw [List.length_append, first, List.length_cons] at enough
    obtain ⟨k, rfl⟩ : ∃ k, fuel = k + 1 := ⟨fuel - 1, by omega⟩
    have unfolded : upTo item (k + 1) (encode a ++ (as.map encode).flatten) =
        (item (encode a ++ (as.map encode).flatten)).bind fun x =>
          (upTo item k x.2).bind fun items => some (x.1 :: items) := by
      rw [first]
      rfl
    have head := h a List.mem_cons_self (as.map encode).flatten
    have tail : ∀ ds, upTo item k (as.map encode).flatten = some ds ↔ _ := fun ds =>
      ih (fun b hb => h b (List.mem_cons_of_mem a hb))
        (fun b hb => nonempty b (List.mem_cons_of_mem a hb)) (by omega)
    rw [unfolded]
    by_cases ok : fits a
    · rw [head.1 ok, Option.bind_some, Option.bind_eq_some_iff]
      simp only [tail, List.forall_mem_cons, ok, true_and, Option.some.injEq]
      constructor
      · rintro ⟨ds, ⟨all, rfl⟩, rfl⟩
        exact ⟨all, rfl⟩
      · rintro ⟨all, rfl⟩
        exact ⟨as, ⟨all, rfl⟩, rfl⟩
    · rw [head.2 ok]
      simp [ok]

theorem many_eq_some {item : Reader α} {fits : α → Prop} {encode : α → Bytes} {as cs : List α}
    (h : ∀ a ∈ as, ReadsWhen (fits a) item (encode a) a) (nonempty : ∀ a ∈ as, encode a ≠ []) :
    many item (as.map encode).flatten = some cs ↔ (∀ a ∈ as, fits a) ∧ cs = as :=
  upTo_eq_some h nonempty (Nat.le_refl _)

/-! ## Types -/

theorem reads_valType (t : ValType) : Reads valType [t.code] t := by
  rcases t with _ | _ | _ | _ | (_ | _) <;> exact fun _ => rfl

theorem readsWhen_valTypes (ts : List ValType) :
    ReadsWhen (ts.length < 2 ^ 32) (vector valType) (Bytes.vector (ts.map ([·.code]))) ts :=
  (readsWhen_vector fun t _ => (reads_valType t).when).congr (by simp)

theorem readsWhen_funcType (t : FuncType) :
    ReadsWhen (t.params.length < 2 ^ 32 ∧ t.results.length < 2 ^ 32) funcType t.encode t := by
  have tag : Reads (exactly [0x60]) [0x60] () := fun _ => rfl
  have lists := (readsWhen_valTypes t.params).map₂ (readsWhen_valTypes t.results) FuncType.mk
  exact (tag.when.bind (f := fun _ => _) lists).congr (and_iff_right trivial)

theorem reads_u32_toNat (n : UInt32) : Reads u32 (Bytes.u32 n.toNat) n.toNat :=
  reads_u32 n.toNat_lt

theorem reads_u64_toNat (n : UInt64) : Reads u64 (Leb128.encodeNat n.toNat) n.toNat :=
  fun rest => Leb128.decodeNat_encodeNat 64 n.toNat n.toNat_lt rest

/-- Limits always fit: their bounds are words. -/
theorem readsWhen_extent (e : Extent) : ReadsWhen True extent e.encode e := by
  rcases e with ⟨min, _ | max⟩ | ⟨min, _ | max⟩
  · have row := (reads_u32_toNat min).when.map fun n => Extent.narrow ⟨n.toUInt32, none⟩
    rw [show min.toNat.toUInt32 = min by simp] at row
    exact row.cons
  · have row := (reads_u32_toNat min).when.map₂ (reads_u32_toNat max).when fun n k =>
      Extent.narrow ⟨n.toUInt32, some k.toUInt32⟩
    rw [show min.toNat.toUInt32 = min by simp, show max.toNat.toUInt32 = max by simp] at row
    exact (row.congr (and_iff_left trivial)).cons
  · have row := (reads_u64_toNat min).when.map fun n => Extent.wide ⟨n.toUInt64, none⟩
    rw [show min.toNat.toUInt64 = min by simp] at row
    exact row.cons
  · have row := (reads_u64_toNat min).when.map₂ (reads_u64_toNat max).when fun n k =>
      Extent.wide ⟨n.toUInt64, some k.toUInt64⟩
    rw [show min.toNat.toUInt64 = min by simp, show max.toNat.toUInt64 = max by simp] at row
    exact (row.congr (and_iff_left trivial)).cons

theorem readsWhen_tableType (t : TableType) : ReadsWhen True tableType t.encode t := by
  have element : Reads refKind [t.element.code] t.element := by
    rcases t.element with _ | _ <;> exact fun _ => rfl
  exact (element.when.map₂ (readsWhen_extent t.extent) TableType.mk).congr (and_iff_left trivial)

end Reader

/-! ## Imports and exports -/

/-- Can the import be written with its numbers in 32 bits and its names in the allowed size? -/
def Import.Fits (i : Import) : Prop :=
  (Bytes.ofText i.source).length ≤ Reader.maxNameSize ∧
    (Bytes.ofText i.name).length ≤ Reader.maxNameSize ∧
    match i.kind with
    | .func t => t < 2 ^ 32
    | _ => True

/-- Can the export be written with its numbers in 32 bits and its name in the allowed size? -/
def Export.Fits (e : Export) : Prop :=
  (Bytes.ofText e.name).length ≤ Reader.maxNameSize ∧ e.index < 2 ^ 32

namespace Reader

theorem readsWhen_importEntry (i : Import) : ReadsWhen i.Fits importEntry i.encode i := by
  obtain ⟨source, field, kind⟩ := i
  have names := fun {P : Prop} {bs : Bytes} (reads : ReadsWhen P importKind bs kind) =>
    (readsWhen_name source).bind (f := fun x => do
      let y ← name
      let z ← importKind
      pure (⟨x, y, z⟩ : Import)) ((readsWhen_name field).map₂ reads (Import.mk source))
  simp only [Import.Fits, Import.encode, List.append_assoc]
  apply names
  cases kind with
  | func t => exact ((readsWhen_u32 t).map ImportKind.func).cons
  | table t => exact ((readsWhen_tableType t).map ImportKind.table).cons
  | memory e => exact ((readsWhen_extent e).map ImportKind.memory).cons
  | global t isMutable =>
    refine Reads.when ?_
    rcases t with _ | _ | _ | _ | (_ | _) <;> cases isMutable <;> exact fun _ => rfl

theorem readsWhen_exportEntry (e : Export) : ReadsWhen e.Fits exportEntry e.encode e := by
  have kind : Reads exportKind [e.kind.code] e.kind := by
    rcases e.kind with _ | _ | _ | _ <;> exact fun _ => rfl
  have row := (readsWhen_name e.name).bind (f := fun x => do
      let y ← exportKind
      let z ← u32
      pure (⟨x, y, z⟩ : Export)) (kind.when.map₂ (readsWhen_u32 e.index) (Export.mk e.name))
  exact row.congr (and_congr_right fun _ => and_iff_right trivial)

end Reader

/-! ## Instructions and bodies -/

/-- Can the type of a construct be written in 32 bits? -/
def BlockType.Fits : BlockType → Prop
  | .result _ => True
  | .indexed i => i < 2 ^ 32

/-- Can the numbers of an instruction be written in 32 bits? -/
def Op.Fits : Op Nat Nat → Prop
  | .br n => n < 2 ^ 32
  | .brIf n => n < 2 ^ 32
  | .call n => n < 2 ^ 32
  | .localGet n => n < 2 ^ 32
  | .localSet n => n < 2 ^ 32
  | _ => True

/-- Can the numbers of a stream item be written in 32 bits? -/
def Instr.Fits : Instr Nat Nat → Prop
  | .op o => o.Fits
  | .block type => type.Fits
  | .loop type => type.Fits
  | .close => True

/-- Can the numbers of a body be written in 32 bits? -/
structure Code.Fits (c : Code) : Prop where
  /-- The number of groups of locals. -/
  groups : c.locals.length < 2 ^ 32
  /-- The number of locals in each group. -/
  counts : ∀ g ∈ c.locals, g.1 < 2 ^ 32
  /-- The instructions. -/
  body : ∀ i ∈ c.body, i.Fits

namespace Reader

theorem readsWhen_signedIndex (n : Nat) :
    ReadsWhen (n < 2 ^ 32) signedIndex (Leb128.encodeInt n) n := by
  intro rest
  constructor
  · intro h
    rw [signedIndex, Leb128.decodeInt_encodeInt 33 n (by omega) (by simpa using h)]
  · intro h
    rw [signedIndex, Leb128.decodeInt_encodeInt_of_le 33 n (by simpa using h)]

/-- The bytes of an index cannot be taken for those of a value type: a type is one byte with bit 6
set, and an index that is one byte has bit 6 clear. -/
theorem encodeInt_natCast_head (n : Nat) :
    ∃ b bs, Leb128.encodeInt n = b :: bs ∧ (b.toNat < 64 ∨ 128 ≤ b.toNat) := by
  rw [Leb128.encodeInt]
  split
  · refine ⟨_, _, rfl, .inl ?_⟩
    rw [Leb128.toNat_toUInt8 (by omega)]
    omega
  · refine ⟨_, _, rfl, .inr ?_⟩
    rw [Leb128.toNat_toUInt8 (by omega)]
    omega

theorem valType_eq_none (b : UInt8) (bs : Bytes) :
    b.toNat < 64 ∨ 128 ≤ b.toNat → valType (b :: bs) = none := by
  have opened : ∀ next : UInt8 → Reader ValType, (byte >>= next) (b :: bs) = next b bs :=
    fun _ => rfl
  rw [valType, opened]
  split <;> intro range
  iterate 6 exact absurd range (by decide)
  rfl

theorem readsWhen_blockType (t : BlockType) : ReadsWhen t.Fits blockType t.encode t := by
  rcases t with (_ | t) | n
  · exact Reads.when fun _ => rfl
  · refine Reads.when ?_
    rcases t with _ | _ | _ | _ | (_ | _) <;> exact fun _ => rfl
  · intro rest
    obtain ⟨b, bs, first, range⟩ := encodeInt_natCast_head n
    have passed : blockType (Leb128.encodeInt n ++ rest) =
        (signedIndex (Leb128.encodeInt n ++ rest)).map fun x => (.indexed x.1, x.2) := by
      rw [first, List.cons_append]
      unfold blockType
      split
      · rename_i same
        cases same
        exact absurd range (by decide)
      · rw [valType_eq_none b _ range]
    show (_ → blockType (Leb128.encodeInt n ++ rest) = _) ∧
      (_ → blockType (Leb128.encodeInt n ++ rest) = _)
    rw [passed]
    constructor
    · intro fits
      rw [(readsWhen_signedIndex n rest).1 fits]
      rfl
    · intro large
      rw [(readsWhen_signedIndex n rest).2 large]
      rfl

theorem reads_i64 (v : Int64) : Reads i64 (Leb128.encodeInt v.toInt) v := by
  intro rest
  have low : -(2 ^ (64 - 1) : Nat) ≤ v.toInt := by
    have := v.le_toInt
    omega
  have high : v.toInt < (2 ^ (64 - 1) : Nat) := by
    have := v.toInt_lt
    omega
  simp [i64, Leb128.decodeInt_encodeInt 64 v.toInt low high rest]

theorem reads_bits64 (x : UInt64) : Reads bits64 (Bytes.ofUInt64 x) x := by
  intro rest
  have bound := x.toNat_lt
  show some (_, rest) = some (x, rest)
  rw [Option.some.injEq, Prod.mk.injEq]
  refine ⟨?_, rfl⟩
  apply UInt64.toNat_inj.1
  simp [Nat.shiftRight_eq_div_pow]
  omega

theorem readsWhen_instr (i : Instr Nat Nat) : ReadsWhen i.Fits instr i.encode i := by
  cases i with
  | block type => exact ((readsWhen_blockType type).map Instr.block).cons
  | loop type => exact ((readsWhen_blockType type).map Instr.loop).cons
  | close => exact Reads.when fun _ => rfl
  | op o =>
    cases o with
    | br n => exact ((readsWhen_u32 n).map fun k => Instr.op (.br k)).cons
    | brIf n => exact ((readsWhen_u32 n).map fun k => Instr.op (.brIf k)).cons
    | call n => exact ((readsWhen_u32 n).map fun k => Instr.op (.call k)).cons
    | localGet n => exact ((readsWhen_u32 n).map fun k => Instr.op (.localGet k)).cons
    | localSet n => exact ((readsWhen_u32 n).map fun k => Instr.op (.localSet k)).cons
    | i32Const v => exact ((reads_i32 v).when.map fun k => Instr.op (.i32Const k)).cons
    | i64Const v => exact ((reads_i64 v).when.map fun k => Instr.op (.i64Const k)).cons
    | f32Const v => exact ((reads_single v).when.map fun k => Instr.op (.f32Const k)).cons
    | f64Const v => exact ((reads_bits64 v).when.map fun k => Instr.op (.f64Const k)).cons
    | i32Arith a => cases a <;> exact Reads.when fun _ => rfl
    | f32Arith a => cases a <;> exact Reads.when fun _ => rfl
    | _ => exact Reads.when fun _ => rfl

theorem readsWhen_localGroup (g : Nat × ValType) :
    ReadsWhen (g.1 < 2 ^ 32) localGroup (Bytes.u32 g.1 ++ [g.2.code]) g :=
  ((readsWhen_u32 g.1).map₂ (reads_valType g.2).when Prod.mk).congr (and_iff_left trivial)

end Reader

theorem Instr.encode_ne_nil (i : Instr Nat Nat) : i.encode ≠ [] := by
  cases i with
  | op o =>
    cases o with
    | i32Arith a => cases a <;> exact List.cons_ne_nil _ _
    | f32Arith a => cases a <;> exact List.cons_ne_nil _ _
    | _ => exact List.cons_ne_nil _ _
  | _ => exact List.cons_ne_nil _ _

/-- A body is read back exactly when its numbers fit, and otherwise it is refused. -/
theorem Code.decode_encode {c d : Code} : Code.decode c.encode = some d ↔ c.Fits ∧ d = c := by
  have groups := Reader.readsWhen_vector fun g (_ : g ∈ c.locals) => Reader.readsWhen_localGroup g
  have body : ∀ items, Reader.many Reader.instr (c.body.map Instr.encode).flatten = some items ↔
      (∀ i ∈ c.body, i.Fits) ∧ items = c.body := fun _ =>
    Reader.many_eq_some (fun i _ => Reader.readsWhen_instr i) fun i _ => i.encode_ne_nil
  show (Reader.vector Reader.localGroup (Bytes.vector (c.locals.map fun g =>
      Bytes.u32 g.1 ++ [g.2.code]) ++ (c.body.map Instr.encode).flatten)).bind (fun x =>
        (Reader.many Reader.instr x.2).bind fun items => some ⟨x.1, items⟩) = some d ↔ _
  by_cases ok : c.locals.length < 2 ^ 32 ∧ ∀ g ∈ c.locals, g.1 < 2 ^ 32
  · rw [(groups _).1 ok, Option.bind_some, Option.bind_eq_some_iff]
    simp only [body, Option.some.injEq]
    constructor
    · rintro ⟨items, ⟨all, rfl⟩, rfl⟩
      exact ⟨⟨ok.1, ok.2, all⟩, rfl⟩
    · rintro ⟨fits, rfl⟩
      exact ⟨_, ⟨fits.body, rfl⟩, rfl⟩
  · rw [(groups _).2 ok]
    simp only [Option.bind_none, reduceCtorEq, false_iff, not_and]
    exact fun fits => absurd ⟨fits.groups, fits.counts⟩ ok

end WasmForge

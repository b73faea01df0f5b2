import WasmForge.Binary.Reader
import WasmForge.Module.Basic

/-!
# Reading modules

The inverse of writing, for every module that uses the covered instructions, with the freedom that
the format leaves: sections may be missing, custom sections may stand anywhere and are skipped, and
integers may be over-long.  Sections for globals, table entries and memory contents are accepted
when they are empty.  Reading checks the form only; `WasmForge.Module.Validity` says which modules
make sense.
-/

namespace WasmForge

namespace Reader

/-! ## Types -/

/-- A reference type. -/
def refKind : Reader RefKind := do
  match ← byte with
  | 0x70 => pure .func
  | 0x6F => pure .host
  | _ => failure

/-- A value type. -/
def valType : Reader ValType := do
  match ← byte with
  | 0x7F => pure .i32
  | 0x7E => pure .i64
  | 0x7D => pure .f32
  | 0x7C => pure .f64
  | 0x70 => pure (.reference .func)
  | 0x6F => pure (.reference .host)
  | _ => failure

/-- The index of a type, written as a signed number of 33 bits that is not negative. -/
def signedIndex : Reader Nat := fun bs =>
  match Leb128.decodeInt 33 bs with
  | some (.ofNat i, rest) => some (i, rest)
  | _ => none

/-- The type of a construct. -/
def blockType : Reader BlockType := fun bs =>
  match bs with
  | 0x40 :: rest => some (.result none, rest)
  | _ =>
    match valType bs with
    | some (t, rest) => some (.result (some t), rest)
    | none => (signedIndex bs).map fun (i, rest) => (.indexed i, rest)

/-- A function type. -/
def funcType : Reader FuncType := do
  exactly [0x60]
  let params ← vector valType
  let results ← vector valType
  pure ⟨params, results⟩

/-- Limits. -/
def extent : Reader Extent := do
  match ← byte with
  | 0x00 => do
    let min ← u32
    pure (.narrow ⟨min.toUInt32, none⟩)
  | 0x01 => do
    let min ← u32
    let max ← u32
    pure (.narrow ⟨min.toUInt32, some max.toUInt32⟩)
  | 0x04 => do
    let min ← u64
    pure (.wide ⟨min.toUInt64, none⟩)
  | 0x05 => do
    let min ← u64
    let max ← u64
    pure (.wide ⟨min.toUInt64, some max.toUInt64⟩)
  | _ => failure

/-- The type of a table. -/
def tableType : Reader TableType := do
  let element ← refKind
  let size ← extent
  pure ⟨element, size⟩

/-! ## Instructions and bodies -/

/-- The eight bytes of a 64-bit pattern, lowest first. -/
def bits64 : Reader UInt64
  | a :: b :: c :: d :: e :: f :: g :: h :: rest =>
    let value := [a, b, c, d, e, f, g, h].foldr (fun (x : UInt8) high => x.toNat + 256 * high) 0
    some (value.toUInt64, rest)
  | _ => none

/-- A stream item. -/
def instr : Reader (Instr Nat Nat) := do
  match ← byte with
  | 0x00 => pure (.op .unreachable)
  | 0x01 => pure (.op .nop)
  | 0x02 => do pure (.block (← blockType))
  | 0x03 => do pure (.loop (← blockType))
  | 0x0B => pure .close
  | 0x0C => do pure (.op (.br (← u32)))
  | 0x0D => do pure (.op (.brIf (← u32)))
  | 0x0F => pure (.op .ret)
  | 0x10 => do pure (.op (.call (← u32)))
  | 0x1A => pure (.op .drop)
  | 0x20 => do pure (.op (.localGet (← u32)))
  | 0x21 => do pure (.op (.localSet (← u32)))
  | 0x41 => do pure (.op (.i32Const (← i32)))
  | 0x42 => do pure (.op (.i64Const (← i64)))
  | 0x43 => do pure (.op (.f32Const (← single)))
  | 0x44 => do pure (.op (.f64Const (← bits64)))
  | 0x6A => pure (.op (.i32Arith .add))
  | 0x6C => pure (.op (.i32Arith .mul))
  | 0x92 => pure (.op (.f32Arith .add))
  | 0x94 => pure (.op (.f32Arith .mul))
  | _ => failure

/-- A group of locals of one type. -/
def localGroup : Reader (Nat × ValType) := do
  let count ← u32
  let type ← valType
  pure (count, type)

end Reader

/-- Reads a body: groups of locals, then instructions to the last byte. -/
def Code.decode (bs : Bytes) : Option Code := do
  let (locals, rest) ← Reader.vector Reader.localGroup bs
  let body ← Reader.many Reader.instr rest
  pure ⟨locals, body⟩

namespace Reader

/-! ## Entries of sections -/

/-- What an import stands for. -/
def importKind : Reader ImportKind := do
  match ← byte with
  | 0x00 => do pure (.func (← u32))
  | 0x01 => do pure (.table (← tableType))
  | 0x02 => do pure (.memory (← extent))
  | 0x03 => do
    let type ← valType
    match ← byte with
    | 0x00 => pure (.global type false)
    | 0x01 => pure (.global type true)
    | _ => failure
  | _ => failure

/-- An import. -/
def importEntry : Reader Import := do
  let source ← name
  let field ← name
  let kind ← importKind
  pure ⟨source, field, kind⟩

/-- An index space. -/
def exportKind : Reader ExportKind := do
  match ← byte with
  | 0x00 => pure .func
  | 0x01 => pure .table
  | 0x02 => pure .memory
  | 0x03 => pure .global
  | _ => failure

/-- An export. -/
def exportEntry : Reader Export := do
  let field ← name
  let kind ← exportKind
  let index ← u32
  pure ⟨field, kind, index⟩

/-- A section: its tag and its payload. -/
def taggedSection : Reader (UInt8 × Bytes) := do
  let tag ← byte
  let payload ← sized
  pure (tag, payload)

end Reader

namespace Module

/-- The tags of sections in the order in which they may stand, custom sections apart. -/
def sectionOrder : List UInt8 := [1, 2, 3, 4, 5, 6, 7, 8, 9, 12, 10, 11]

/-- Is the payload that of a section without entries? -/
def isEmptySection (payload : Bytes) : Bool := Reader.whole .u32 payload == some 0

/-- Adds the payload of a section that is not custom. -/
def addPayload (m : Module Bytes) (tag : UInt8) (payload : Bytes) : Option (Module Bytes) :=
  match tag with
  | 1 => do some { m with types := ← Reader.whole (.vector .funcType) payload }
  | 2 => do some { m with imports := ← Reader.whole (.vector .importEntry) payload }
  | 3 => do some { m with functions := ← Reader.whole (.vector .u32) payload }
  | 4 => do some { m with tables := ← Reader.whole (.vector .tableType) payload }
  | 5 => do some { m with memories := ← Reader.whole (.vector .extent) payload }
  | 7 => do some { m with exports := ← Reader.whole (.vector .exportEntry) payload }
  | 8 => do some { m with start := some (← Reader.whole .u32 payload) }
  | 10 => do some { m with code := ← Reader.whole (.vector .sized) payload }
  | _ => if isEmptySection payload then some m else none

/-- Adds a section to what was read before it.  `left` are the tags that may still come. -/
def addSection (state : List UInt8 × Module Bytes) (tagged : UInt8 × Bytes) :
    Option (List UInt8 × Module Bytes) := do
  let (left, m) := state
  let (tag, payload) := tagged
  if tag = 0 then
    let _ ← Reader.name payload
    some state
  else
    match left.dropWhile (· ≠ tag) with
    | [] => none
    | _ :: later => do some (later, ← m.addPayload tag payload)

/-- Reads a module down to the bytes of its bodies. -/
def decodeSections (bs : Bytes) : Option (Module Bytes) := do
  let ((), rest) ← Reader.exactly header bs
  let sections ← Reader.many Reader.taggedSection rest
  let (_, m) ← sections.foldlM addSection (sectionOrder, empty Bytes)
  some m

/-- Reads a module. -/
def decode (bs : Bytes) : Option (Module Code) := do
  let m ← decodeSections bs
  let code ← m.code.mapM Code.decode
  some (m.withCode code)

end Module

end WasmForge

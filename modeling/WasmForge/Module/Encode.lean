import WasmForge.Binary.Bytes
import WasmForge.Module.Basic

/-!
# Writing modules

The binary form of types, instructions, bodies and whole modules.  A module is the header followed
by its Type, Import, Function, Export and Code sections, each present even when empty.  Table and
Memory sections stand before the exports if there are tables or memories, and a Start section before
the code if there is a start function.
-/

namespace WasmForge

/-! ## Types -/

/-- The byte of a reference type. -/
def RefKind.code : RefKind → UInt8
  | .func => 0x70
  | .host => 0x6F

/-- The byte of a value type. -/
def ValType.code : ValType → UInt8
  | .i32 => 0x7F
  | .i64 => 0x7E
  | .f32 => 0x7D
  | .f64 => 0x7C
  | .reference kind => kind.code

/-- The type of a construct: `0x40` for none, the byte of its result, or the index of its type. -/
def BlockType.encode : BlockType → Bytes
  | .result none => [0x40]
  | .result (some t) => [t.code]
  | .indexed i => Leb128.encodeInt i

/-- A function type: its tag, its parameters, its results. -/
def FuncType.encode (t : FuncType) : Bytes :=
  0x60 :: (Bytes.vector (t.params.map ([·.code])) ++ Bytes.vector (t.results.map ([·.code])))

/-- Limits: a flag for the presence of a maximum, then the bounds. -/
def Limits.encode (l : Limits) : Bytes :=
  match l.maximum with
  | none => 0x00 :: Bytes.u32 l.minimum.toNat
  | some max => 0x01 :: (Bytes.u32 l.minimum.toNat ++ Bytes.u32 max.toNat)

/-- Limits with 64-bit bounds: a flag for the presence of a maximum, then the bounds. -/
def WideLimits.encode (l : WideLimits) : Bytes :=
  match l.maximum with
  | none => 0x04 :: Leb128.encodeNat l.minimum.toNat
  | some max => 0x05 :: (Leb128.encodeNat l.minimum.toNat ++ Leb128.encodeNat max.toNat)

/-- Limits of either width. -/
def Extent.encode : Extent → Bytes
  | .narrow l => l.encode
  | .wide l => l.encode

/-- The type of a table: what it holds, then its limits. -/
def TableType.encode (t : TableType) : Bytes := t.element.code :: t.extent.encode

/-! ## Instructions and bodies -/

/-- The eight bytes of a 64-bit pattern, lowest first. -/
def Bytes.ofUInt64 (x : UInt64) : Bytes :=
  [x.toUInt8, (x >>> 8).toUInt8, (x >>> 16).toUInt8, (x >>> 24).toUInt8,
    (x >>> 32).toUInt8, (x >>> 40).toUInt8, (x >>> 48).toUInt8, (x >>> 56).toUInt8]

/-- An instruction: its opcode, then its immediate. -/
def Op.encode : Op Nat Nat → Bytes
  | .unreachable => [0x00]
  | .nop => [0x01]
  | .br label => 0x0C :: Bytes.u32 label
  | .brIf label => 0x0D :: Bytes.u32 label
  | .ret => [0x0F]
  | .call f => 0x10 :: Bytes.u32 f
  | .drop => [0x1A]
  | .localGet l => 0x20 :: Bytes.u32 l
  | .localSet l => 0x21 :: Bytes.u32 l
  | .i32Const v => 0x41 :: Bytes.i32 v
  | .i64Const v => 0x42 :: Leb128.encodeInt v.toInt
  | .f32Const v => 0x43 :: v.toBytes
  | .f64Const v => 0x44 :: Bytes.ofUInt64 v
  | .i32Arith .add => [0x6A]
  | .i32Arith .mul => [0x6C]
  | .f32Arith .add => [0x92]
  | .f32Arith .mul => [0x94]

/-- A stream item: its opcode, then its immediate. -/
def Instr.encode : Instr Nat Nat → Bytes
  | .op o => o.encode
  | .block type => 0x02 :: type.encode
  | .loop type => 0x03 :: type.encode
  | .close => [0x0B]

/-- A body: its groups of locals, then its instructions. -/
def Code.encode (c : Code) : Bytes :=
  Bytes.vector (c.locals.map fun (count, t) => Bytes.u32 count ++ [t.code])
    ++ c.body.flatMap Instr.encode

/-! ## Modules -/

/-- An import: both names, then a kind tag with its description. -/
def Import.encode (i : Import) : Bytes :=
  Bytes.name i.source ++ Bytes.name i.name ++ match i.kind with
    | .func t => 0x00 :: Bytes.u32 t
    | .table t => 0x01 :: t.encode
    | .memory e => 0x02 :: e.encode
    | .global t isMutable => [0x03, t.code, if isMutable then 0x01 else 0x00]

/-- The byte of an index space. -/
def ExportKind.code : ExportKind → UInt8
  | .func => 0x00
  | .table => 0x01
  | .memory => 0x02
  | .global => 0x03

/-- An export: its name, its index space, its index. -/
def Export.encode (e : Export) : Bytes := Bytes.name e.name ++ e.kind.code :: Bytes.u32 e.index

namespace Module

/-- A section that is left out when it has no entries. -/
def optionalSection (tag : UInt8) (entries : List Bytes) : Bytes :=
  if entries.isEmpty then [] else Bytes.taggedSection tag (Bytes.vector entries)

/-- The binary form of a module whose bodies are given as sized bytes. -/
def encode (m : Module Bytes) : Bytes :=
  header
    ++ Bytes.taggedSection 1 (Bytes.vector (m.types.map FuncType.encode))
    ++ Bytes.taggedSection 2 (Bytes.vector (m.imports.map Import.encode))
    ++ Bytes.taggedSection 3 (Bytes.vector (m.functions.map Bytes.u32))
    ++ optionalSection 4 (m.tables.map TableType.encode)
    ++ optionalSection 5 (m.memories.map Extent.encode)
    ++ Bytes.taggedSection 7 (Bytes.vector (m.exports.map Export.encode))
    ++ (match m.start with
        | some f => Bytes.taggedSection 8 (Bytes.u32 f)
        | none => [])
    ++ Bytes.taggedSection 10 (Bytes.vector m.code)

end Module

end WasmForge

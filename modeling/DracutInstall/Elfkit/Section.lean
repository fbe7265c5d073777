import DracutInstall.Elfkit.Dynamic

namespace DracutInstall
namespace Elfkit

open ByteCodec Rust

structure SectionHeader where
  name : UInt32
  shtype : SectionType
  flags : SectionFlags
  addr : UInt64
  offset : UInt64
  size : UInt64
  link : UInt32
  info : UInt32
  addralign : UInt64
  entsize : UInt64
  deriving DecidableEq

/-- `SectionHeader::default()`. -/
def SectionHeader.default : SectionHeader :=
  { name := 0, shtype := SectionType.null, flags := Bitflags.empty, addr := 0, offset := 0,
    size := 0, link := 0, info := 0, addralign := 0, entsize := 0 }

def SectionHeader.fromReader (eh : Header) : Reader Error SectionHeader := do
  let name ← readU32 eof eh.order
  let shtype ← readU32 eof eh.order
  let reb ← readUclass eh.identClass eh.order
  let flags ← orFail (Bitflags.fromBits sectionFlagBits reb.toBitVec) (.invalidSectionFlags reb)
  let addr ← readUclass eh.identClass eh.order
  let offset ← readUclass eh.identClass eh.order
  let size ← readUclass eh.identClass eh.order
  let link ← readU32 eof eh.order
  let info ← readU32 eof eh.order
  let addralign ← readUclass eh.identClass eh.order
  let entsize ← readUclass eh.identClass eh.order
  pure { name, shtype, flags, addr, offset, size, link, info, addralign, entsize }

structure Section where
  header : SectionHeader
  name : List UInt8
  content : SectionContent
  addrlock : Bool
  deriving DecidableEq

/-- `Section::default()`, the value `mem::take` leaves behind. -/
def Section.default : Section :=
  { header := SectionHeader.default, name := [], content := .none, addrlock := false }

/-- `io.seek(SeekFrom::Start(off))` on a file: what is left from there on.  The
kernel takes a signed offset and refuses a negative one. -/
def seekStart (file : List UInt8) (off : UInt64) : Outcome Error (List UInt8) :=
  if off.toNat < 2 ^ 63 then .ok (file.drop off.toNat) else .err (.io .invalidInput)

/-- `vec![0; n]` panics when the buffer would be larger than `isize::MAX`. -/
def allocZeroed (n : Nat) : Outcome Error Unit :=
  if n < 2 ^ 63 then .ok () else .panic

/-- `seek`, a zeroed buffer of `n` bytes, and `read_exact` into it. -/
def readAt (file : List UInt8) (off : UInt64) (n : Nat) : Outcome Error (List UInt8) := do
  let io ← seekStart file off
  allocZeroed n
  let (buf, _) ← (readExact eof n).run io
  .ok buf

/-- `Section::from_reader` on the section taken out of the vector. -/
def Section.fromReader (sec : Section) (file : List UInt8) (linked : Option Section)
    (eh : Header) : Outcome Error Section :=
  if sec.content ≠ .unloaded then .ok sec
  else if sec.header.shtype = SectionType.nobits then .ok { sec with content := .none }
  else do
    let bb ← readAt file sec.header.offset sec.header.size.toNat
    let linked := linked.map fun s => s.content
    let content ←
      if sec.header.shtype = SectionType.strtab then Strtab.fromReader bb linked eh
      else if sec.header.shtype = SectionType.dynamic then Dynamic.fromReader bb linked eh
      else .ok .unloaded
    .ok { sec with content := content }

end Elfkit
end DracutInstall

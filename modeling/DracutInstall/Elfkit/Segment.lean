import DracutInstall.Elfkit.Header

namespace DracutInstall
namespace Elfkit

open ByteCodec

structure SegmentHeader where
  phtype : SegmentType
  flags : SegmentFlags
  offset : UInt64
  vaddr : UInt64
  paddr : UInt64
  filesz : UInt64
  memsz : UInt64
  align : UInt64
  deriving DecidableEq

/-- `u64::from(elf_read_u32!(eh, io)?)`. -/
def readU32As64 (o : ByteOrder) : Reader Error UInt64 := do
  let v ← readU32 eof o
  pure v.toUInt64

def SegmentHeader.fromReader (eh : Header) : Reader Error SegmentHeader := do
  let reb ← readU32 eof eh.order
  let phtype ← orFail (Known.ofNat? segmentTypeCodes reb.toNat) (.invalidSegmentType reb)
  match eh.identClass with
  | .class64 => do
      let fl ← readU32As64 eh.order
      let offset ← readU64 eof eh.order
      let vaddr ← readU64 eof eh.order
      let paddr ← readU64 eof eh.order
      let filesz ← readU64 eof eh.order
      let memsz ← readU64 eof eh.order
      let align ← readU64 eof eh.order
      let flags := Bitflags.fromBitsTruncate segmentFlagBits fl.toBitVec
      pure { phtype, flags, offset, vaddr, paddr, filesz, memsz, align }
  | .class32 => do
      let offset ← readU32As64 eh.order
      let vaddr ← readU32As64 eh.order
      let paddr ← readU32As64 eh.order
      let filesz ← readU32As64 eh.order
      let memsz ← readU32As64 eh.order
      let fl ← readU32As64 eh.order
      let align ← readU32As64 eh.order
      let flags := Bitflags.fromBitsTruncate segmentFlagBits fl.toBitVec
      pure { phtype, flags, offset, vaddr, paddr, filesz, memsz, align }

end Elfkit
end DracutInstall

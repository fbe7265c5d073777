import DracutInstall.Elfkit.Content

namespace DracutInstall
namespace Elfkit

open ByteCodec

structure Header where
  identMagic : List UInt8
  identClass : Class
  identEndianness : Endianness
  identVersion : UInt8
  identAbi : Abi
  identAbiversion : UInt8
  etype : ElfType
  machine : Machine
  version : UInt32
  entry : UInt64
  phoff : UInt64
  shoff : UInt64
  flags : HeaderFlags
  ehsize : UInt16
  phentsize : UInt16
  phnum : UInt16
  shentsize : UInt16
  shnum : UInt16
  shstrndx : UInt16
  deriving DecidableEq

def elfMagic : List UInt8 := [0x7f, 0x45, 0x4c, 0x46]

/-- `read_uclass`: an address-sized value, four bytes in a 32-bit file. -/
def readUclass (c : Class) (o : ByteOrder) : Reader Error UInt64 :=
  match c with
  | .class32 => do
      let v ← readU32 eof o
      pure v.toUInt64
  | .class64 => readU64 eof o

def Header.fromReader : Reader Error Header := do
  let b ← readExact .invalidMagic 16
  let identMagic := b.take 4
  ensure (identMagic = elfMagic) .invalidMagic
  let identClass ← orFail (Class.fromU8 (b.getD 4 0)) (.invalidIdentClass (b.getD 4 0))
  let identEndianness ←
    orFail (Endianness.fromU8 (b.getD 5 0)) (.invalidEndianness (b.getD 5 0))
  let identVersion := b.getD 6 0
  ensure (identVersion = 1) (.invalidIdentVersion identVersion)
  let identAbi ← orFail (Known.ofNat? abiCodes (b.getD 7 0).toNat) (.invalidAbi (b.getD 7 0))
  let identAbiversion := b.getD 8 0
  let o := identEndianness.order
  let reb ← readU16 eof o
  let etype ← orFail (Known.ofNat? elfTypeCodes reb.toNat) (.invalidElfType reb)
  let reb ← readU16 eof o
  let machine ← orFail (Known.ofNat? machineCodes reb.toNat) (.invalidMachineType reb)
  let version ← readU32 eof o
  ensure (version = 1) (.invalidVersion version)
  let entry ← readUclass identClass o
  let phoff ← readUclass identClass o
  let shoff ← readUclass identClass o
  let reb ← readU32 eof o
  let flags := Bitflags.fromBitsTruncate headerFlagBits reb.toBitVec
  let ehsize ← readU16 eof o
  let phentsize ← readU16 eof o
  let phnum ← readU16 eof o
  let shentsize ← readU16 eof o
  let shnum ← readU16 eof o
  let shstrndx ← readU16 eof o
  pure {
    identMagic, identClass, identEndianness, identVersion, identAbi, identAbiversion, etype,
    machine, version, entry, phoff, shoff, flags, ehsize, phentsize, phnum, shentsize, shnum,
    shstrndx }

/-- The byte order the table readers take from the header. -/
def Header.order (eh : Header) : ByteOrder := eh.identEndianness.order

end Elfkit
end DracutInstall

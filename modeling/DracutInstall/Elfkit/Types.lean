/-
The enumerations and flag sets of `elfkit/types.rs`.

A field-less enumeration of the source is the set of its discriminants, and
`from_u*` is membership in that set.  A `bitflags!` type is a bit pattern below
the union of its constants.  Both carry that condition in the value, so a header
that has been built holds only values the source's types can hold.
-/
import DracutInstall.Lib.Bytes

namespace DracutInstall
namespace Elfkit

open ByteCodec

/-- A value of an enumeration whose discriminants are `codes`. -/
abbrev Known (codes : List Nat) := {c : Nat // c ∈ codes}

/-- `FromPrimitive::from_u*` of such an enumeration. -/
def Known.ofNat? (codes : List Nat) (c : Nat) : Option (Known codes) :=
  if h : c ∈ codes then some ⟨c, h⟩ else none

theorem Known.ofNat?_val {codes : List Nat} (k : Known codes) : Known.ofNat? codes k.val = some k := by
  rw [Known.ofNat?, dif_pos k.property]

/-- A `bitflags!` type with the union `all` of its constants. -/
structure Bitflags {w : Nat} (all : BitVec w) where
  bits : BitVec w
  defined : bits &&& ~~~all = 0#w
  deriving DecidableEq

namespace Bitflags

variable {w : Nat} {all : BitVec w}

def empty : Bitflags all := ⟨0#w, by simp⟩

def fromBits (all : BitVec w) (bits : BitVec w) : Option (Bitflags all) :=
  if h : bits &&& ~~~all = 0#w then some ⟨bits, h⟩ else none

def fromBitsTruncate (all : BitVec w) (bits : BitVec w) : Bitflags all :=
  ⟨bits &&& all, by simp [BitVec.and_assoc]⟩

theorem fromBits_bits (f : Bitflags all) : fromBits all f.bits = some f := by
  rw [fromBits, dif_pos f.defined]

/-- Truncation does nothing to a pattern of defined bits. -/
theorem fromBitsTruncate_bits (f : Bitflags all) : fromBitsTruncate all f.bits = f := by
  have h : f.bits &&& all = f.bits := by
    apply BitVec.eq_of_getLsbD_eq
    intro i hi
    have hbit := congrArg (fun b => b.getLsbD i) f.defined
    simp only [BitVec.getLsbD_and, BitVec.getLsbD_not, hi, decide_true, Bool.true_and,
      BitVec.getLsbD_zero] at hbit
    rw [BitVec.getLsbD_and]
    cases hf : f.bits.getLsbD i <;> cases ha : all.getLsbD i <;> simp_all
  simp only [fromBitsTruncate, h]

end Bitflags

/-! ## Flag sets -/

/-- The union of the constants of `SectionFlags`. -/
def sectionFlagBits : BitVec 64 :=
  1#64 ||| 0x2#64 ||| 0x4#64 ||| 0x10#64 ||| 0x20#64 ||| 0x40#64 ||| 0x80#64 ||| 0x100#64 |||
  0x200#64 ||| 0x400#64 ||| 0x800#64 ||| 0x0ff00000#64 ||| 0xf0000000#64 ||| 0x10000000#64

abbrev SectionFlags := Bitflags sectionFlagBits

/-- The union of the constants of `HeaderFlags`. -/
def headerFlagBits : BitVec 32 :=
  0x1#32 ||| 0x2#32 ||| 0x4#32 ||| 0xf0000000#32 ||| 0x50000000#32 ||| 0x60000000#32 |||
  0x70000000#32 ||| 0x80000000#32 ||| 0x1000#32 ||| 0x2000#32 ||| 0x01000000#32 ||| 0x02000000#32 |||
  0x03000000#32 ||| 0x04000000#32 ||| 0x05000000#32 ||| 0x400#32 ||| 0x200#32

abbrev HeaderFlags := Bitflags headerFlagBits

/-- `READABLE`, `WRITABLE` and `EXECUTABLE`. -/
def segmentFlagBits : BitVec 64 := 4#64 ||| 2#64 ||| 1#64

abbrev SegmentFlags := Bitflags segmentFlagBits

/-- The constants of `DynamicFlags1` are the bits 0 to 27. -/
def dynamicFlags1Bits : BitVec 64 := 0xfffffff#64

abbrev DynamicFlags1 := Bitflags dynamicFlags1Bits

/-! ## Enumerations -/

inductive Endianness where
  | littleEndian
  | bigEndian
  deriving DecidableEq, Repr

namespace Endianness

def fromU8 (b : UInt8) : Option Endianness :=
  if b = 1 then some littleEndian else if b = 2 then some bigEndian else none

def toU8 : Endianness → UInt8
  | littleEndian => 1
  | bigEndian => 2

/-- The byte order the `byteorder` readers use for it. -/
def order : Endianness → ByteOrder
  | littleEndian => .little
  | bigEndian => .big

theorem fromU8_toU8 (e : Endianness) : fromU8 e.toU8 = some e := by
  cases e <;> rfl

end Endianness

inductive Class where
  | class32
  | class64
  deriving DecidableEq, Repr

namespace Class

def fromU8 (b : UInt8) : Option Class :=
  if b = 1 then some class32 else if b = 2 then some class64 else none

def toU8 : Class → UInt8
  | class32 => 1
  | class64 => 2

theorem fromU8_toU8 (c : Class) : fromU8 c.toU8 = some c := by
  cases c <;> rfl

end Class

def abiCodes : List Nat := [0, 1, 2, 3, 6, 7, 8, 9, 10, 11, 12, 64, 97, 255]

abbrev Abi := Known abiCodes

def elfTypeCodes : List Nat := [0, 1, 2, 3, 4]

abbrev ElfType := Known elfTypeCodes

def machineCodes : List Nat := [
  0, 1, 2, 3, 4, 5, 6, 7, 8, 9, 10, 15, 17, 18, 19, 20, 21, 22, 23, 36, 37, 38, 39, 40, 41, 42, 43,
  44, 45, 46, 47, 48, 49, 50, 51, 52, 53, 54, 55, 56, 57, 58, 59, 60, 61, 62, 63, 64, 65, 66, 67,
  68, 69, 70, 71, 72, 73, 74, 75, 76, 77, 78, 79, 80, 81, 82, 83, 84, 85, 86, 87, 88, 89, 90, 91,
  92, 93, 94, 95, 96, 97, 98, 99, 100, 101, 102, 103, 104, 105, 106, 107, 108, 109, 110, 111, 112,
  113, 114, 115, 116, 117, 118, 119, 120, 131, 132, 133, 134, 135, 136, 137, 138, 139, 140, 141,
  142, 143, 144, 160, 161, 162, 163, 164, 165, 166, 167, 168, 169, 170, 171, 172, 173, 174, 175,
  176, 177, 178, 179, 180, 181, 183, 185, 186, 187, 188, 189, 190, 191, 192, 193, 194, 195, 196,
  197, 198, 199, 200, 201, 202, 203, 204, 210, 211, 212, 213, 214, 215, 216, 217, 218, 219, 220,
  221, 222, 223, 224, 243, 247]

abbrev Machine := Known machineCodes

theorem machineCodes_lt : ∀ c ∈ machineCodes, c < 2 ^ 16 := by decide +kernel

def segmentTypeCodes : List Nat := [
  0, 1, 2, 3, 4, 5, 6, 7, 8, 0x6474e550, 0x6474e551, 0x6474e552, 0x6474e553, 0x65041580,
  0x6ffffffa, 0x6ffffffb, 0x70000000, 0x70000001, 0x70000002, 0x70000003]

abbrev SegmentType := Known segmentTypeCodes

theorem segmentTypeCodes_lt : ∀ c ∈ segmentTypeCodes, c < 2 ^ 32 := by decide +kernel

def dynamicTypeCodes : List Nat := [
  0, 1, 2, 3, 4, 5, 6, 7, 8, 9, 10, 11, 12, 13, 14, 15, 16, 17, 18, 19, 20, 21, 22, 23, 24, 25, 26,
  27, 28, 29, 30, 32, 33, 34, 0xffff, 0x6ffffdf5, 0x6ffffdf6, 0x6ffffdf7, 0x6ffffdf8, 0x6ffffdf9,
  0x6ffffdfa, 0x6ffffdfb, 0x6ffffdfc, 0x6ffffdfd, 0x6ffffdfe, 0x6ffffdff, 0x6ffffef5, 0x6ffffef6,
  0x6ffffef7, 0x6ffffef8, 0x6ffffef9, 0x6ffffefa, 0x6ffffefb, 0x6ffffefc, 0x6ffffefd, 0x6ffffefe,
  0x6ffffeff, 0x6ffffff0, 0x6ffffff9, 0x6ffffffa, 0x6ffffffb, 0x6ffffffc, 0x6ffffffd, 0x6ffffffe,
  0x6fffffff, 0x70000000, 0x70000001, 0x70000002, 0x70000003, 0x70000004, 0x70000005, 0x70000006,
  0x70000008, 0x70000009, 0x7000000a, 0x7000000b, 0x70000010, 0x70000011, 0x70000012, 0x70000013,
  0x70000014, 0x70000016, 0x70000035, 0x7ffffffd, 0x7fffffff]

abbrev DynamicType := Known dynamicTypeCodes

theorem dynamicTypeCodes_lt : ∀ c ∈ dynamicTypeCodes, c < 2 ^ 32 := by decide +kernel

namespace DynamicType

def null : DynamicType := ⟨0, by decide⟩
def needed : DynamicType := ⟨1, by decide⟩
def rpath : DynamicType := ⟨15, by decide⟩
def runpath : DynamicType := ⟨29, by decide⟩
def unknown : DynamicType := ⟨0xffff, by decide⟩
def flags1 : DynamicType := ⟨0x6ffffffb, by decide⟩

/-- `from_u64` casts the number to the enumeration's 32-bit discriminant before it is looked up:
the high half of a 64-bit tag is dropped. -/
def fromU64 (tag : UInt64) : Option DynamicType :=
  Known.ofNat? dynamicTypeCodes (tag.toNat % 2 ^ 32)

end DynamicType

/-- `SectionType(pub u32)`: any number is a section type. -/
abbrev SectionType := UInt32

namespace SectionType

def null : SectionType := 0
def strtab : SectionType := 3
def dynamic : SectionType := 6
def nobits : SectionType := 8

end SectionType

end Elfkit
end DracutInstall

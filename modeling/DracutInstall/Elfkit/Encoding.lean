/-
The ELF layout of the records the readers decode.

Each `encode` writes the fields in the order and width of the ELF
specification's tables, for either class and either byte order, and each
`reads_*` theorem says that the reader takes exactly those bytes and returns the
record.
-/
import DracutInstall.Elfkit.Elf

namespace DracutInstall
namespace Elfkit

open ByteCodec Rust

/-- The value fits an address-sized field of the class. -/
def Fits (c : Class) (x : UInt64) : Prop := c = .class32 → x.toNat < 2 ^ 32

instance (c : Class) (x : UInt64) : Decidable (Fits c x) :=
  inferInstanceAs (Decidable (c = .class32 → x.toNat < 2 ^ 32))

def encodeUclass (c : Class) (o : ByteOrder) (x : UInt64) : List UInt8 :=
  match c with
  | .class32 => toBytes o 4 x.toNat
  | .class64 => toBytes o 8 x.toNat

theorem reads_u32As64 (o : ByteOrder) {x : UInt64} (h : x.toNat < 2 ^ 32) :
    Reads (readU32As64 o) (toBytes o 4 x.toNat) x := by
  have hx : x.toUInt32.toNat = x.toNat := by
    rw [UInt64.toNat_toUInt32, Nat.mod_eq_of_lt h]
  have hback : x.toUInt32.toUInt64 = x := by
    apply UInt64.toNat_inj.mp
    rw [UInt32.toNat_toUInt64, hx]
  have hr := (Reads.u32 eof o x.toUInt32).map UInt32.toUInt64
  rwa [hx, hback] at hr

theorem reads_uclass {c : Class} (o : ByteOrder) {x : UInt64} (h : Fits c x) :
    Reads (readUclass c o) (encodeUclass c o x) x := by
  cases c with
  | class32 => exact reads_u32As64 o (h rfl)
  | class64 => exact Reads.u64 eof o x

/-! ## Header -/

/-- The condition under which a header is one the reader can return. -/
structure Header.WellFormed (h : Header) : Prop where
  magic : h.identMagic = elfMagic
  identVersion : h.identVersion = 1
  version : h.version = 1
  entry : Fits h.identClass h.entry
  phoff : Fits h.identClass h.phoff
  shoff : Fits h.identClass h.shoff

/-- `e_ident`, with the seven bytes of padding the reader ignores. -/
def Header.encodeIdent (h : Header) (pad : List UInt8) : List UInt8 :=
  h.identMagic ++ [h.identClass.toU8, h.identEndianness.toU8, h.identVersion,
    UInt8.ofNat h.identAbi.val, h.identAbiversion] ++ pad

def Header.encode (h : Header) (pad : List UInt8) : List UInt8 :=
  h.encodeIdent pad ++
  (toBytes h.order 2 (UInt16.ofNat h.etype.val).toNat ++
  (toBytes h.order 2 (UInt16.ofNat h.machine.val).toNat ++
  (toBytes h.order 4 h.version.toNat ++
  (encodeUclass h.identClass h.order h.entry ++
  (encodeUclass h.identClass h.order h.phoff ++
  (encodeUclass h.identClass h.order h.shoff ++
  (toBytes h.order 4 (UInt32.ofBitVec h.flags.bits).toNat ++
  (toBytes h.order 2 h.ehsize.toNat ++
  (toBytes h.order 2 h.phentsize.toNat ++
  (toBytes h.order 2 h.phnum.toNat ++
  (toBytes h.order 2 h.shentsize.toNat ++
  (toBytes h.order 2 h.shnum.toNat ++
   toBytes h.order 2 h.shstrndx.toNat))))))))))))

/-- A code of a 16-bit enumeration survives the trip through its field. -/
theorem ofNat?_u16 {codes : List Nat} (hcodes : ∀ c ∈ codes, c < 2 ^ 16) (k : Known codes) :
    Known.ofNat? codes (UInt16.ofNat k.val).toNat = some k := by
  have hk := hcodes k.val k.property
  rw [UInt16.toNat_ofNat', Nat.mod_eq_of_lt hk]
  exact Known.ofNat?_val k

theorem Header.encodeIdent_eq {h : Header} (hw : h.WellFormed) (pad : List UInt8) :
    h.encodeIdent pad = 0x7f :: 0x45 :: 0x4c :: 0x46 :: h.identClass.toU8 ::
      h.identEndianness.toU8 :: 1 :: UInt8.ofNat h.identAbi.val :: h.identAbiversion :: pad := by
  rw [Header.encodeIdent, hw.magic, hw.identVersion]
  rfl

/-- The header with a flag word of which some bits may be unknown. -/
def Header.encodeRaw (h : Header) (pad : List UInt8) (fl : UInt32) : List UInt8 :=
  h.encodeIdent pad ++
  (toBytes h.order 2 (UInt16.ofNat h.etype.val).toNat ++
  (toBytes h.order 2 (UInt16.ofNat h.machine.val).toNat ++
  (toBytes h.order 4 h.version.toNat ++
  (encodeUclass h.identClass h.order h.entry ++
  (encodeUclass h.identClass h.order h.phoff ++
  (encodeUclass h.identClass h.order h.shoff ++
  (toBytes h.order 4 fl.toNat ++
  (toBytes h.order 2 h.ehsize.toNat ++
  (toBytes h.order 2 h.phentsize.toNat ++
  (toBytes h.order 2 h.phnum.toNat ++
  (toBytes h.order 2 h.shentsize.toNat ++
  (toBytes h.order 2 h.shnum.toNat ++
   toBytes h.order 2 h.shstrndx.toNat))))))))))))

theorem Header.reads_raw {h : Header} (hw : h.WellFormed) {pad : List UInt8} (hpad : pad.length = 7)
    {fl : UInt32} (hflags : Bitflags.fromBitsTruncate headerFlagBits fl.toBitVec = h.flags) :
    Reads Header.fromReader (h.encodeRaw pad fl) h := by
  have heq := Header.encodeIdent_eq hw pad
  have hlen : (h.encodeIdent pad).length = 16 := by simp [heq, hpad]
  have habi : (UInt8.ofNat h.identAbi.val).toNat = h.identAbi.val := by
    have hlt : ∀ c ∈ abiCodes, c < 2 ^ 8 := by decide
    rw [UInt8.toNat_ofNat', Nat.mod_eq_of_lt (hlt _ h.identAbi.property)]
  have hident := Reads.exact Error.invalidMagic (h.encodeIdent pad)
  rw [hlen] at hident
  refine hident.bind ?_
  rw [heq]
  refine Reads.step (Reads.ensure _ rfl) ?_
  refine Reads.step (Reads.orFail _ (Class.fromU8_toU8 h.identClass)) ?_
  refine Reads.step (Reads.orFail _ (Endianness.fromU8_toU8 h.identEndianness)) ?_
  refine Reads.step (Reads.ensure _ rfl) ?_
  refine Reads.step (a := h.identAbi) (Reads.orFail _ (by
    show Known.ofNat? abiCodes (UInt8.ofNat h.identAbi.val).toNat = some h.identAbi
    rw [habi, Known.ofNat?_val])) ?_
  refine (Reads.u16 eof h.order _).bind ?_
  refine Reads.step (Reads.orFail _ (ofNat?_u16 (by decide) h.etype)) ?_
  refine (Reads.u16 eof h.order _).bind ?_
  refine Reads.step (Reads.orFail _ (ofNat?_u16 machineCodes_lt h.machine)) ?_
  refine (Reads.u32 eof h.order h.version).bind ?_
  refine Reads.step (Reads.ensure _ hw.version) ?_
  refine (reads_uclass h.order hw.entry).bind ?_
  refine (reads_uclass h.order hw.phoff).bind ?_
  refine (reads_uclass h.order hw.shoff).bind ?_
  refine (Reads.u32 eof h.order fl).bind ?_
  refine (Reads.u16 eof h.order h.ehsize).bind ?_
  refine (Reads.u16 eof h.order h.phentsize).bind ?_
  refine (Reads.u16 eof h.order h.phnum).bind ?_
  refine (Reads.u16 eof h.order h.shentsize).bind ?_
  refine (Reads.u16 eof h.order h.shnum).bind ?_
  refine (Reads.u16 eof h.order h.shstrndx).last ?_
  have hmagic : [0x7f, 0x45, 0x4c, 0x46] = h.identMagic := hw.magic.symm
  have hversion : (1 : UInt8) = h.identVersion := hw.identVersion.symm
  simp only [List.take_succ_cons, List.take_zero, hmagic, List.getD_cons_succ, List.getD_cons_zero,
    hversion, hflags]

theorem Header.reads_fromReader {h : Header} (hw : h.WellFormed) {pad : List UInt8}
    (hpad : pad.length = 7) : Reads Header.fromReader (h.encode pad) h := by
  have hflags : Bitflags.fromBitsTruncate headerFlagBits (UInt32.ofBitVec h.flags.bits).toBitVec =
      h.flags := Bitflags.fromBitsTruncate_bits h.flags
  exact Header.reads_raw hw hpad hflags

/-! ## Program headers -/

/-- `e_phentsize` of the class. -/
def SegmentHeader.recordSize : Class → Nat
  | .class32 => 32
  | .class64 => 56

/-- The condition under which a program header is representable in the class. -/
def SegmentHeader.Fits (c : Class) (s : SegmentHeader) : Prop :=
  Elfkit.Fits c s.offset ∧ Elfkit.Fits c s.vaddr ∧ Elfkit.Fits c s.paddr ∧
  Elfkit.Fits c s.filesz ∧ Elfkit.Fits c s.memsz ∧ Elfkit.Fits c s.align

instance (c : Class) (s : SegmentHeader) : Decidable (s.Fits c) :=
  inferInstanceAs (Decidable (_ ∧ _))

/-- `p_flags` stands second in a 64-bit program header and last but one in a
32-bit one. -/
def SegmentHeader.encode (c : Class) (o : ByteOrder) (s : SegmentHeader) : List UInt8 :=
  match c with
  | .class64 =>
      toBytes o 4 (UInt32.ofNat s.phtype.val).toNat ++
      (toBytes o 4 (UInt64.ofBitVec s.flags.bits).toNat ++
      (toBytes o 8 s.offset.toNat ++
      (toBytes o 8 s.vaddr.toNat ++
      (toBytes o 8 s.paddr.toNat ++
      (toBytes o 8 s.filesz.toNat ++
      (toBytes o 8 s.memsz.toNat ++
       toBytes o 8 s.align.toNat))))))
  | .class32 =>
      toBytes o 4 (UInt32.ofNat s.phtype.val).toNat ++
      (toBytes o 4 s.offset.toNat ++
      (toBytes o 4 s.vaddr.toNat ++
      (toBytes o 4 s.paddr.toNat ++
      (toBytes o 4 s.filesz.toNat ++
      (toBytes o 4 s.memsz.toNat ++
      (toBytes o 4 (UInt64.ofBitVec s.flags.bits).toNat ++
       toBytes o 4 s.align.toNat))))))

theorem SegmentHeader.encode_length (c : Class) (o : ByteOrder) (s : SegmentHeader) :
    (s.encode c o).length = SegmentHeader.recordSize c := by
  cases c <;> simp [SegmentHeader.encode, SegmentHeader.recordSize]

/-- The flag bits a program header can hold fit 32 bits. -/
theorem SegmentFlags.lt (f : SegmentFlags) : (UInt64.ofBitVec f.bits).toNat < 2 ^ 32 := by
  have h : (f.bits &&& segmentFlagBits).toNat ≤ segmentFlagBits.toNat := by
    rw [BitVec.toNat_and]
    exact Nat.and_le_right
  have hf : f.bits &&& segmentFlagBits = f.bits :=
    congrArg Bitflags.bits (Bitflags.fromBitsTruncate_bits f)
  have hall : segmentFlagBits.toNat = 7 := by decide
  rw [hf, hall] at h
  show f.bits.toNat < 2 ^ 32
  omega

theorem ofNat?_u32 {codes : List Nat} (hcodes : ∀ c ∈ codes, c < 2 ^ 32) (k : Known codes) :
    Known.ofNat? codes (UInt32.ofNat k.val).toNat = some k := by
  have hk := hcodes k.val k.property
  rw [UInt32.toNat_ofNat', Nat.mod_eq_of_lt hk]
  exact Known.ofNat?_val k

/-- The fields before and behind `p_flags`. -/
def SegmentHeader.beforeFlags (c : Class) (o : ByteOrder) (s : SegmentHeader) : List UInt8 :=
  match c with
  | .class64 => toBytes o 4 (UInt32.ofNat s.phtype.val).toNat
  | .class32 =>
      toBytes o 4 (UInt32.ofNat s.phtype.val).toNat ++
      (toBytes o 4 s.offset.toNat ++
      (toBytes o 4 s.vaddr.toNat ++
      (toBytes o 4 s.paddr.toNat ++
      (toBytes o 4 s.filesz.toNat ++
       toBytes o 4 s.memsz.toNat))))

def SegmentHeader.behindFlags (c : Class) (o : ByteOrder) (s : SegmentHeader) : List UInt8 :=
  match c with
  | .class64 =>
      toBytes o 8 s.offset.toNat ++
      (toBytes o 8 s.vaddr.toNat ++
      (toBytes o 8 s.paddr.toNat ++
      (toBytes o 8 s.filesz.toNat ++
      (toBytes o 8 s.memsz.toNat ++
       toBytes o 8 s.align.toNat))))
  | .class32 => toBytes o 4 s.align.toNat

/-- A program header with a flag word of which some bits may be unknown. -/
def SegmentHeader.encodeRaw (c : Class) (o : ByteOrder) (s : SegmentHeader) (fl : UInt64) :
    List UInt8 :=
  s.beforeFlags c o ++ (toBytes o 4 fl.toNat ++ s.behindFlags c o)

theorem SegmentHeader.encode_eq (c : Class) (o : ByteOrder) (s : SegmentHeader) :
    s.encode c o = s.encodeRaw c o (UInt64.ofBitVec s.flags.bits) := by
  cases c with
  | class64 => rfl
  | class32 => simp only [encode, encodeRaw, beforeFlags, behindFlags, List.append_assoc]

/-- The unknown bits are dropped. -/
theorem SegmentHeader.reads_raw (eh : Header) {s : SegmentHeader} (hs : s.Fits eh.identClass)
    {fl : UInt64} (hlt : fl.toNat < 2 ^ 32)
    (hflags : Bitflags.fromBitsTruncate segmentFlagBits fl.toBitVec = s.flags) :
    Reads (SegmentHeader.fromReader eh) (s.encodeRaw eh.identClass eh.order fl) s := by
  obtain ⟨hoffset, hvaddr, hpaddr, hfilesz, hmemsz, halign⟩ := hs
  have htype := ofNat?_u32 segmentTypeCodes_lt s.phtype
  unfold SegmentHeader.fromReader
  cases hc : eh.identClass with
  | class64 =>
      simp only [encodeRaw, beforeFlags, behindFlags]
      refine (Reads.u32 eof eh.order _).bind ?_
      refine Reads.step (Reads.orFail _ htype) ?_
      refine (reads_u32As64 eh.order hlt).bind ?_
      refine (Reads.u64 eof eh.order s.offset).bind ?_
      refine (Reads.u64 eof eh.order s.vaddr).bind ?_
      refine (Reads.u64 eof eh.order s.paddr).bind ?_
      refine (Reads.u64 eof eh.order s.filesz).bind ?_
      refine (Reads.u64 eof eh.order s.memsz).bind ?_
      refine (Reads.u64 eof eh.order s.align).last ?_
      rw [hflags]
  | class32 =>
      simp only [encodeRaw, beforeFlags, behindFlags, List.append_assoc]
      refine (Reads.u32 eof eh.order _).bind ?_
      refine Reads.step (Reads.orFail _ htype) ?_
      refine (reads_u32As64 eh.order (hoffset hc)).bind ?_
      refine (reads_u32As64 eh.order (hvaddr hc)).bind ?_
      refine (reads_u32As64 eh.order (hpaddr hc)).bind ?_
      refine (reads_u32As64 eh.order (hfilesz hc)).bind ?_
      refine (reads_u32As64 eh.order (hmemsz hc)).bind ?_
      refine (reads_u32As64 eh.order hlt).bind ?_
      refine (reads_u32As64 eh.order (halign hc)).last ?_
      rw [hflags]

theorem SegmentHeader.reads_fromReader (eh : Header) {s : SegmentHeader}
    (hs : s.Fits eh.identClass) :
    Reads (SegmentHeader.fromReader eh) (s.encode eh.identClass eh.order) s := by
  rw [SegmentHeader.encode_eq]
  exact SegmentHeader.reads_raw eh hs (SegmentFlags.lt s.flags)
    (Bitflags.fromBitsTruncate_bits s.flags)

/-! ## Section headers -/

/-- `e_shentsize` of the class. -/
def SectionHeader.recordSize : Class → Nat
  | .class32 => 40
  | .class64 => 64

/-- The condition under which a section header is representable in the class. -/
def SectionHeader.Fits (c : Class) (s : SectionHeader) : Prop :=
  Elfkit.Fits c (UInt64.ofBitVec s.flags.bits) ∧ Elfkit.Fits c s.addr ∧
  Elfkit.Fits c s.offset ∧ Elfkit.Fits c s.size ∧ Elfkit.Fits c s.addralign ∧
  Elfkit.Fits c s.entsize

instance (c : Class) (s : SectionHeader) : Decidable (s.Fits c) :=
  inferInstanceAs (Decidable (_ ∧ _))

def SectionHeader.encode (c : Class) (o : ByteOrder) (s : SectionHeader) : List UInt8 :=
  toBytes o 4 s.name.toNat ++
  (toBytes o 4 s.shtype.toNat ++
  (encodeUclass c o (UInt64.ofBitVec s.flags.bits) ++
  (encodeUclass c o s.addr ++
  (encodeUclass c o s.offset ++
  (encodeUclass c o s.size ++
  (toBytes o 4 s.link.toNat ++
  (toBytes o 4 s.info.toNat ++
  (encodeUclass c o s.addralign ++
   encodeUclass c o s.entsize))))))))

theorem SectionHeader.encode_length (c : Class) (o : ByteOrder) (s : SectionHeader) :
    (s.encode c o).length = SectionHeader.recordSize c := by
  cases c <;> simp [SectionHeader.encode, SectionHeader.recordSize, encodeUclass]

theorem SectionHeader.reads_fromReader (eh : Header) {s : SectionHeader}
    (hs : s.Fits eh.identClass) :
    Reads (SectionHeader.fromReader eh) (s.encode eh.identClass eh.order) s := by
  obtain ⟨hflags, haddr, hoffset, hsize, haddralign, hentsize⟩ := hs
  have hbits : Bitflags.fromBits sectionFlagBits (UInt64.ofBitVec s.flags.bits).toBitVec =
      some s.flags := Bitflags.fromBits_bits s.flags
  refine (Reads.u32 eof eh.order s.name).bind ?_
  refine (Reads.u32 eof eh.order s.shtype).bind ?_
  refine (reads_uclass eh.order hflags).bind ?_
  refine Reads.step (Reads.orFail _ hbits) ?_
  refine (reads_uclass eh.order haddr).bind ?_
  refine (reads_uclass eh.order hoffset).bind ?_
  refine (reads_uclass eh.order hsize).bind ?_
  refine (Reads.u32 eof eh.order s.link).bind ?_
  refine (Reads.u32 eof eh.order s.info).bind ?_
  refine (reads_uclass eh.order haddralign).bind ?_
  exact (reads_uclass eh.order hentsize).last rfl

end Elfkit
end DracutInstall

/-
Decoding what was encoded.

An `Image` is what a writer of an object decided: the header, the two tables,
the section names and the file.  `Valid` says that the file holds them at the
places the header and the section headers name, in the class and byte order of
the header; the tables may lie anywhere.  `HasDynamic` says the same of one
DYNAMIC section and its string table.
-/
import Mathlib.Data.List.Forall2
import DracutInstall.Elfkit.Encoding

namespace DracutInstall
namespace Elfkit

open ByteCodec Rust

/-! ## Dynamic entries -/

/-- An entry of a dynamic table as its writer sees it.  A string entry knows its
text and the offset at which the string table holds it. -/
inductive DynEntry where
  | null (val : UInt64)
  | string (tag : DynamicType) (h : tag = .rpath ∨ tag = .runpath ∨ tag = .needed)
      (off : UInt64) (text : List UInt8)
  | flags1 (flags : DynamicFlags1)
  | other (tag : DynamicType)
      (h : tag ≠ .null ∧ ¬ (tag = .rpath ∨ tag = .runpath ∨ tag = .needed) ∧ tag ≠ .flags1)
      (val : UInt64)

namespace DynEntry

def tag : DynEntry → DynamicType
  | null _ => .null
  | string t _ _ _ => t
  | flags1 _ => .flags1
  | other t _ _ => t

def val : DynEntry → UInt64
  | null v => v
  | string _ _ off _ => off
  | flags1 f => UInt64.ofBitVec f.bits
  | other _ _ v => v

/-- The `d_tag` and `d_val` words. -/
def encode (c : Class) (o : ByteOrder) (e : DynEntry) : List UInt8 :=
  encodeUclass c o (UInt64.ofNat e.tag.val) ++ encodeUclass c o e.val

/-- The entry the reader is to make of it. -/
def decoded : DynEntry → Dynamic
  | null _ => { dhtype := .null, content := .none }
  | string t _ off text => { dhtype := t, content := .string text (some off) }
  | flags1 f => { dhtype := .flags1, content := .flags1 f }
  | other t _ v => { dhtype := t, content := .address v }

/-- The value fits the class, and a string lies in the table where it is said to. -/
def Fits (c : Class) (table : List UInt8) (e : DynEntry) : Prop :=
  Elfkit.Fits c e.val ∧
  match e with
  | string _ _ off text => off.toNat < table.length ∧ StringAt table off.toNat text
  | _ => True

instance (c : Class) (table : List UInt8) (e : DynEntry) : Decidable (e.Fits c table) := by
  unfold Fits
  cases e <;> infer_instance

def isNull : DynEntry → Bool
  | null _ => true
  | _ => false

/-- The entries up to and including the first NULL. -/
def upToNull : List DynEntry → List DynEntry
  | [] => []
  | e :: es => if e.isNull then [e] else e :: upToNull es

/-- The texts of the string entries of one type among the entries that count. -/
def strings (t : DynamicType) (entries : List DynEntry) : List (List UInt8) :=
  (upToNull entries).filterMap fun e =>
    match e with
    | string t' _ _ text => if t' = t then some text else none
    | _ => none

theorem tag_fromU64 (e : DynEntry) : DynamicType.fromU64 (UInt64.ofNat e.tag.val) = some e.tag := by
  have hlt := dynamicTypeCodes_lt e.tag.val e.tag.property
  have hlow : e.tag.val % 2 ^ 64 % 2 ^ 32 = e.tag.val := by omega
  rw [DynamicType.fromU64, UInt64.toNat_ofNat', hlow]
  exact Known.ofNat?_val e.tag

theorem tag_fits (c : Class) (e : DynEntry) : Elfkit.Fits c (UInt64.ofNat e.tag.val) := by
  intro _
  have hlt := dynamicTypeCodes_lt e.tag.val e.tag.property
  rw [UInt64.toNat_ofNat', Nat.mod_eq_of_lt (by omega)]
  exact hlt

/-- One round of the loop makes the decoded entry. -/
theorem entry_eq {c : Class} {table : List UInt8} {e : DynEntry} (he : e.Fits c table) :
    Dynamic.entry (some ⟨table⟩) (UInt64.ofNat e.tag.val) e.val = .ok e.decoded := by
  rw [Dynamic.entry, tag_fromU64]
  cases e with
  | null v => rfl
  | string t h off text =>
      have hnull : t ≠ .null := by
        rcases h with rfl | rfl | rfl <;> decide
      obtain ⟨_, hoff, htext⟩ := he
      have hget : Strtab.get ⟨table⟩ off.toNat = text := by
        rw [Strtab.get, if_neg (by simpa using hoff), untilNul]
        exact htext.takeWhile
      simp only [tag, val, decoded, hnull, if_false, h, if_true, dynamicString, hget]
  | flags1 f =>
      have hbits : Bitflags.fromBits dynamicFlags1Bits (UInt64.ofBitVec f.bits).toBitVec = some f :=
        Bitflags.fromBits_bits f
      simp only [tag, val, decoded, show DynamicType.flags1 ≠ .null by decide, if_false,
        show ¬ (DynamicType.flags1 = .rpath ∨ DynamicType.flags1 = .runpath ∨
          DynamicType.flags1 = .needed) by decide, if_true, hbits]
  | other t h v =>
      obtain ⟨hnull, hstring, hflags⟩ := h
      simp only [tag, val, decoded, hnull, hstring, hflags, if_false]

theorem decoded_dhtype (e : DynEntry) : e.decoded.dhtype = e.tag := by
  cases e <;> rfl

theorem tag_eq_null (e : DynEntry) : e.tag = .null ↔ e.isNull = true := by
  cases e with
  | null v => simp [tag, isNull]
  | string t h off text =>
      have hnull : t ≠ .null := by
        rcases h with rfl | rfl | rfl <;> decide
      simp [tag, isNull, hnull]
  | flags1 f =>
      have hnull : DynamicType.flags1 ≠ .null := by decide
      simp [tag, isNull, hnull]
  | other t h v => simp [tag, isNull, h.1]

end DynEntry

/-- Nothing is left to read a tag from at the end of the table. -/
theorem readUclass_nil (c : Class) (o : ByteOrder) : (readUclass c o).run [] = .err eof := by
  cases c <;> rfl

/-- One round of the loop, when the tag, the value and the entry are all there. -/
theorem Dynamic.readEntries_round (eh : Header) {strtab : Option Strtab} {n : Nat}
    {bytes rest rest' : List UInt8} {tag val : UInt64} {d : Dynamic}
    (htag : (readUclass eh.identClass eh.order).run bytes = .ok (tag, rest))
    (hval : (readUclass eh.identClass eh.order).run rest = .ok (val, rest'))
    (hd : Dynamic.entry strtab tag val = .ok d) :
    Dynamic.readEntries eh strtab (n + 1) bytes =
      if d.dhtype = .null then .ok [d]
      else (Dynamic.readEntries eh strtab n rest').bind fun ds => .ok (d :: ds) := by
  simp only [Dynamic.readEntries, htag, hval, hd, Outcome.ok_bind]
  rfl

theorem Dynamic.readEntries_encode (eh : Header) {table : List UInt8} :
    ∀ (entries : List DynEntry) (fuel : Nat), entries.length < fuel →
      (∀ e ∈ entries, e.Fits eh.identClass table) →
      Dynamic.readEntries eh (some ⟨table⟩) fuel
          (entries.flatMap (DynEntry.encode eh.identClass eh.order)) =
        .ok ((DynEntry.upToNull entries).map DynEntry.decoded) := by
  intro entries
  induction entries with
  | nil =>
      intro fuel hfuel _
      obtain ⟨n, rfl⟩ : ∃ n, fuel = n + 1 := ⟨fuel - 1, by simp at hfuel; omega⟩
      simp only [List.flatMap_nil, Dynamic.readEntries, readUclass_nil]
      rfl
  | cons e es ih =>
      intro fuel hfuel hfits
      obtain ⟨n, rfl⟩ : ∃ n, fuel = n + 1 := ⟨fuel - 1, by simp at hfuel; omega⟩
      have he := hfits e List.mem_cons_self
      have htag := reads_uclass eh.order (e.tag_fits eh.identClass)
      have hval := reads_uclass eh.order he.1
      have hes := ih n (by simp at hfuel; omega) fun e' h => hfits e' (List.mem_cons_of_mem e h)
      rw [List.flatMap_cons, DynEntry.encode, List.append_assoc,
        Dynamic.readEntries_round eh (htag _) (hval _) (DynEntry.entry_eq he), hes]
      simp only [DynEntry.decoded_dhtype, DynEntry.tag_eq_null]
      by_cases hnull : e.isNull = true
      · simp only [hnull, if_true, DynEntry.upToNull, List.map_cons, List.map_nil]
      · simp only [hnull, if_false, Outcome.bind, DynEntry.upToNull, List.map_cons,
          Bool.false_eq_true]

/-- An encoded entry takes at least one byte. -/
theorem length_le_encode (c : Class) (o : ByteOrder) (entries : List DynEntry) :
    entries.length ≤ (entries.flatMap (DynEntry.encode c o)).length := by
  induction entries with
  | nil => exact Nat.le_refl 0
  | cons e es ih =>
      have hpos : 1 ≤ (e.encode c o).length := by
        cases c <;> simp [DynEntry.encode, encodeUclass]
      rw [List.flatMap_cons, List.length_append, List.length_cons]
      omega

/-- The strings of the decoded table are the texts the writer had. -/
theorem Dynamic.strings_decoded (t : DynamicType) (entries : List DynEntry) :
    Dynamic.strings t ((DynEntry.upToNull entries).map DynEntry.decoded) =
      DynEntry.strings t entries := by
  rw [Dynamic.strings, DynEntry.strings, List.filterMap_map]
  congr 1
  funext e
  cases e with
  | string t' h off text => rfl
  | null v => exact ite_self none
  | flags1 f => exact ite_self none
  | other t' h v => exact ite_self none

/-! ## Images -/

structure Image where
  header : Header
  pad : List UInt8
  segments : List SegmentHeader
  sections : List SectionHeader
  shstrtab : List UInt8
  names : List (List UInt8)
  file : List UInt8

namespace Image

/-- The section header at `i` describes the chunk, which lies where it says. -/
def Holds (im : Image) (i : Nat) (sh : SectionHeader) (chunk : List UInt8) : Prop :=
  im.sections[i]? = some sh ∧ At im.file sh.offset.toNat chunk ∧ sh.size.toNat = chunk.length

instance (im : Image) (i : Nat) (sh : SectionHeader) (chunk : List UInt8) :
    Decidable (im.Holds i sh chunk) :=
  inferInstanceAs (Decidable (_ ∧ _))

structure Valid (im : Image) : Prop where
  header : im.header.WellFormed
  pad : im.pad.length = 7
  phentsize : im.header.phentsize.toNat = SegmentHeader.recordSize im.header.identClass
  phnum : im.header.phnum.toNat = im.segments.length
  shentsize : im.header.shentsize.toNat = SectionHeader.recordSize im.header.identClass
  shnum : im.header.shnum.toNat = im.sections.length
  segmentsFit : ∀ s ∈ im.segments, s.Fits im.header.identClass
  sectionsFit : ∀ s ∈ im.sections, s.Fits im.header.identClass
  fileSize : im.file.length < 2 ^ 63
  headerAt : At im.file 0 (im.header.encode im.pad)
  segmentsAt : At im.file im.header.phoff.toNat
    (im.segments.flatMap (SegmentHeader.encode im.header.identClass im.header.order))
  sectionsAt : At im.file im.header.shoff.toNat
    (im.sections.flatMap (SectionHeader.encode im.header.identClass im.header.order))
  shstrtabAt : ∃ sh, im.Holds im.header.shstrndx.toNat sh im.shstrtab
  names : List.Forall₂ (fun sh name => StringAt im.shstrtab sh.name.toNat name) im.sections im.names

/-- Section `i` is a DYNAMIC section with these entries, linked to a STRTAB
section with this table, whose own link is zero. -/
structure HasDynamic (im : Image) (i : Nat) (table : List UInt8) (entries : List DynEntry) :
    Prop where
  dynamic : ∃ sh, im.Holds i sh
      (entries.flatMap (DynEntry.encode im.header.identClass im.header.order)) ∧
    sh.shtype = SectionType.dynamic ∧ sh.link ≠ 0 ∧
    ∃ str, im.Holds sh.link.toNat str table ∧ str.shtype = SectionType.strtab ∧ str.link = 0
  fits : ∀ e ∈ entries, e.Fits im.header.identClass table

end Image

/-- A chunk that lies in the file is read back whole. -/
theorem readAt_eq {file chunk : List UInt8} {off : UInt64} {n : Nat} (h : At file off.toNat chunk)
    (hfile : file.length < 2 ^ 63) (hn : n = chunk.length) : readAt file off n = .ok chunk := by
  have hle := h.length_le
  have hoff : off.toNat < 2 ^ 63 := by omega
  have hlen : chunk.length < 2 ^ 63 := by omega
  rw [readAt, seekStart, if_pos hoff, Outcome.ok_bind, allocZeroed, hn, if_pos hlen,
    Outcome.ok_bind, h.readExact]
  rfl

namespace Elf

/-- A section with its header and its name, before it is loaded. -/
def namedSection (sh : SectionHeader) (name : List UInt8) : Section :=
  { unnamedSection sh with name := name }

theorem nameSections_eq {shstrtab : List UInt8} {shs : List SectionHeader}
    {names : List (List UInt8)}
    (h : List.Forall₂ (fun sh name => StringAt shstrtab sh.name.toNat name) shs names) :
    nameSections shstrtab (shs.map unnamedSection) =
      .ok (List.zipWith namedSection shs names) := by
  induction h with
  | nil => rfl
  | @cons sh name shs names hname _ ih =>
      have hle : sh.name.toNat ≤ shstrtab.length := hname.2.1
      have htext : untilNul (shstrtab.drop sh.name.toNat) = name := hname.takeWhile
      rw [List.map_cons, nameSections, ih]
      simp only [sectionName, unnamedSection, hle, if_true, htext, Outcome.ok_bind,
        List.zipWith_cons_cons, namedSection]

/-- The sections `from_reader` makes of an image. -/
def imageSections (im : Image) : List Section :=
  List.zipWith namedSection im.sections im.names

theorem fromReader_eq {im : Image} (hv : im.Valid) :
    Elf.fromReader im.file =
      .ok { header := im.header, segments := im.segments, sections := imageSections im } := by
  have hheader : ∃ rest, Header.fromReader.run im.file = .ok (im.header, rest) := by
    obtain ⟨rest, hdrop, _⟩ := hv.headerAt
    refine ⟨rest, ?_⟩
    rw [List.drop_zero] at hdrop
    rw [hdrop]
    exact Header.reads_fromReader hv.header hv.pad rest
  obtain ⟨rest, hheader⟩ := hheader
  have hsegs := readAt_eq hv.segmentsAt hv.fileSize
    (n := im.header.phentsize.toNat * im.header.phnum.toNat) (by
      rw [hv.phentsize, hv.phnum, List.length_flatMap]
      simp [SegmentHeader.encode_length, Nat.mul_comm])
  have hshs := readAt_eq hv.sectionsAt hv.fileSize
    (n := im.header.shnum.toNat * im.header.shentsize.toNat) (by
      rw [hv.shentsize, hv.shnum, List.length_flatMap]
      simp [SectionHeader.encode_length])
  have hreadSegs := Reads.many _ (fun s hs => SegmentHeader.reads_fromReader im.header
    (hv.segmentsFit s hs)) []
  have hreadShs := Reads.many _ (fun s hs => SectionHeader.reads_fromReader im.header
    (hv.sectionsFit s hs)) []
  rw [List.append_nil, ← hv.phnum] at hreadSegs
  rw [List.append_nil, ← hv.shnum] at hreadShs
  obtain ⟨sh, hsh, hat, hsize⟩ := hv.shstrtabAt
  have hstr : readAt im.file sh.offset sh.size.toNat = .ok im.shstrtab :=
    readAt_eq hat hv.fileSize hsize
  have hsec : (im.sections.map unnamedSection)[im.header.shstrndx.toNat]? =
      some (unnamedSection sh) := by
    rw [List.getElem?_map, hsh]
    rfl
  simp only [Elf.fromReader, hheader, Outcome.ok_bind, hsegs, hreadSegs, hshs, hreadShs, hsec,
    Outcome.okOr_some]
  rw [show (unnamedSection sh).header = sh from rfl, hstr, Outcome.ok_bind,
    nameSections_eq hv.names, Outcome.ok_bind]
  rfl

/-- The table of a section, once the section is loaded. -/
def dynamicAt (elf : Elf) (i : Nat) : Option (List Dynamic) :=
  elf.sections[i]?.bind fun sec => sec.content.asDynamic

/-- An unloaded STRTAB section that is not linked any further is loaded in one
step of the recursion. -/
theorem loadFuel_strtab {file table : List UInt8} {elf : Elf} {j : Nat} {str : Section} (fuel : Nat)
    (hj : elf.sections[j]? = some str) (hcontent : str.content = .unloaded)
    (htype : str.header.shtype = SectionType.strtab) (hlink : str.header.link = 0)
    (hread : readAt file str.header.offset str.header.size.toNat = .ok table) :
    loadFuel file (fuel + 1) elf j =
      some (.ok (), elf.setSection j { str with content := .strtab ⟨table⟩ }) := by
  have hindex : (elf.setSection j Section.default).linkIndex str.header.link = none := by
    rw [linkIndex, if_pos (Or.inl (by rw [hlink]; decide))]
  have hnobits : str.header.shtype ≠ SectionType.nobits := by
    rw [htype]
    decide
  have hsec : str.fromReader file none elf.header =
      .ok { str with content := .strtab ⟨table⟩ } := by
    rw [Section.fromReader, if_neg (by rw [hcontent]; exact fun h => h rfl), if_neg hnobits, hread]
    simp only [Outcome.ok_bind, htype, if_true]
    rfl
  simp only [loadFuel, hj, hindex, setSection_header, hsec]
  simp only [setSection, List.set_set]

/-- Loading a DYNAMIC section linked to such a STRTAB section decodes its bytes
against the table. -/
theorem load_dynamic {file bytes table : List UInt8} {elf : Elf} {i j : Nat} {sec str : Section}
    {ds : List Dynamic}
    (hi : elf.sections[i]? = some sec) (hcontent : sec.content = .unloaded)
    (htype : sec.header.shtype = SectionType.dynamic) (hlink : sec.header.link ≠ 0)
    (hlinkj : sec.header.link.toNat = j)
    (hread : readAt file sec.header.offset sec.header.size.toNat = .ok bytes)
    (hj : elf.sections[j]? = some str) (hscontent : str.content = .unloaded)
    (hstype : str.header.shtype = SectionType.strtab) (hslink : str.header.link = 0)
    (hsread : readAt file str.header.offset str.header.size.toNat = .ok table)
    (hds : Dynamic.readEntries elf.header (some ⟨table⟩) (bytes.length + 1) bytes = .ok ds) :
    ∃ elf', elf.load file i = (.ok (), elf') ∧ elf'.dynamicAt i = some ds := by
  have hij : i ≠ j := by
    intro hij
    rw [hij, hj] at hi
    have hsame := Option.some.inj hi
    rw [← hsame, hstype] at htype
    exact absurd htype (by decide)
  have hilt : i < elf.sections.length := (List.getElem?_eq_some_iff.mp hi).1
  have hjlt : j < elf.sections.length := (List.getElem?_eq_some_iff.mp hj).1
  obtain ⟨n, hn⟩ : ∃ n, elf.sections.length = n + 1 := ⟨elf.sections.length - 1, by omega⟩
  have hindex : (elf.setSection i Section.default).linkIndex sec.header.link = some j := by
    have hpos : ¬ sec.header.link < 1 := by
      intro h
      exact hlink (UInt32.lt_one_iff.mp h)
    rw [linkIndex, if_neg, hlinkj]
    rw [setSection_sections, List.length_set, hlinkj]
    exact fun h => h.elim hpos (fun h => by omega)
  have hstr : (elf.setSection i Section.default).sections[j]? = some str := by
    rw [setSection_sections, List.getElem?_set_ne hij, hj]
  have hnobits : sec.header.shtype ≠ SectionType.nobits := by
    rw [htype]
    decide
  have hstrtab : sec.header.shtype ≠ SectionType.strtab := by
    rw [htype]
    decide
  have hsec : sec.fromReader file (some { str with content := .strtab ⟨table⟩ }) elf.header =
      .ok { sec with content := .dynamic ds } := by
    rw [Section.fromReader, if_neg (by rw [hcontent]; exact fun h => h rfl), if_neg hnobits, hread]
    simp only [Outcome.ok_bind]
    rw [if_neg hstrtab, if_pos htype]
    simp only [Option.map_some, Dynamic.fromReader, hds, Outcome.ok_bind]
  obtain ⟨m, hm⟩ : ∃ m, n = m + 1 := ⟨n - 1, by omega⟩
  have hrec := loadFuel_strtab (m + 1) hstr hscontent hstype hslink hsread
  have hback : ((elf.setSection i Section.default).setSection j
      { str with content := .strtab ⟨table⟩ }).sections[j]? =
      some { str with content := .strtab ⟨table⟩ } := by
    rw [setSection_sections, setSection_sections, List.getElem?_set_self]
    rw [List.length_set]
    exact hjlt
  have hload := loadFuel_eq_load file elf i
  rw [hn, hm, loadFuel] at hload
  simp only [hi, hindex, hrec, hback, setSection_header, hsec, Option.some.injEq] at hload
  refine ⟨_, hload.symm, ?_⟩
  rw [dynamicAt, setSection_sections, List.getElem?_set_self (by simpa using hilt)]
  rfl

theorem namedSections_header {R : SectionHeader → List UInt8 → Prop} {shs : List SectionHeader}
    {names : List (List UInt8)} (h : List.Forall₂ R shs names) :
    (List.zipWith namedSection shs names).map Section.header = shs := by
  induction h with
  | nil => rfl
  | cons _ _ ih =>
      rw [List.zipWith_cons_cons, List.map_cons, ih]
      rfl

theorem namedSections_name {R : SectionHeader → List UInt8 → Prop} {shs : List SectionHeader}
    {names : List (List UInt8)} (h : List.Forall₂ R shs names) :
    (List.zipWith namedSection shs names).map Section.name = names := by
  induction h with
  | nil => rfl
  | cons _ _ ih =>
      rw [List.zipWith_cons_cons, List.map_cons, ih]
      rfl

theorem namedSections_getElem? {R : SectionHeader → List UInt8 → Prop}
    {shs : List SectionHeader} {names : List (List UInt8)} (h : List.Forall₂ R shs names)
    {i : Nat} {sh : SectionHeader} (hi : shs[i]? = some sh) :
    ∃ name, (List.zipWith namedSection shs names)[i]? = some (namedSection sh name) := by
  induction h generalizing i with
  | nil => cases hi
  | @cons _ name _ _ _ _ ih =>
      cases i with
      | zero =>
          have hsh := Option.some.inj hi
          exact ⟨name, by rw [← hsh]; rfl⟩
      | succ i =>
          obtain ⟨name', h'⟩ := ih hi
          exact ⟨name', h'⟩

/-- Loading a DYNAMIC section of an image that has just been read. -/
theorem load_image {im : Image} (hv : im.Valid) {i : Nat} {table : List UInt8}
    {entries : List DynEntry} (hd : im.HasDynamic i table entries) (segments : List SegmentHeader) :
    ∃ elf, Elf.load im.file { header := im.header, segments, sections := imageSections im } i =
        (.ok (), elf) ∧
      elf.dynamicAt i = some ((DynEntry.upToNull entries).map DynEntry.decoded) := by
  obtain ⟨sh, hsh, htype, hlink, str, hstr, hstype, hslink⟩ := hd.dynamic
  obtain ⟨name, hsec⟩ := namedSections_getElem? hv.names hsh.1
  obtain ⟨sname, hstrsec⟩ := namedSections_getElem? hv.names hstr.1
  have hread := readAt_eq hsh.2.1 hv.fileSize hsh.2.2
  have hsread := readAt_eq hstr.2.1 hv.fileSize hstr.2.2
  refine load_dynamic hsec rfl htype hlink rfl hread hstrsec rfl hstype hslink hsread ?_
  refine Dynamic.readEntries_encode im.header entries _ ?_ hd.fits
  exact Nat.lt_succ_of_le (length_le_encode _ _ entries)

/-- The dynamic table of section `i` of a file, when the file can be read and the
section loaded. -/
def dynamicTable (file : List UInt8) (i : Nat) : Option (List Dynamic) :=
  match Elf.fromReader file with
  | .ok elf =>
      match elf.load file i with
      | (.ok (), elf) => elf.dynamicAt i
      | _ => none
  | _ => none

theorem dynamicTable_image {im : Image} (hv : im.Valid) {i : Nat} {table : List UInt8}
    {entries : List DynEntry} (hd : im.HasDynamic i table entries) :
    dynamicTable im.file i = some ((DynEntry.upToNull entries).map DynEntry.decoded) := by
  obtain ⟨elf, hload, hdyn⟩ := load_image hv hd im.segments
  simp only [dynamicTable, fromReader_eq hv, hload, hdyn]

end Elf

/-- Reading an image gives back the tables its writer put in it, and loading one
of its DYNAMIC sections the entries that count.  What the entries are does not
depend on the class, the byte order and the placement: any other image with the
same entries gives the same strings. -/
theorem Elf.fromReader_load_image (im : Image) (hv : im.Valid) :
    ∃ elf, Elf.fromReader im.file = .ok elf ∧ elf.header = im.header ∧
      elf.segments = im.segments ∧ elf.sections.map Section.header = im.sections ∧
      elf.sections.map Section.name = im.names ∧
      ∀ i table entries, im.HasDynamic i table entries →
        (∃ elf', elf.load im.file i = (.ok (), elf') ∧
          elf'.dynamicAt i = some ((DynEntry.upToNull entries).map DynEntry.decoded)) ∧
        (∀ t, Dynamic.strings t ((DynEntry.upToNull entries).map DynEntry.decoded) =
          DynEntry.strings t entries) ∧
        ∀ (im' : Image) (i' : Nat) (table' : List UInt8), im'.Valid →
          im'.HasDynamic i' table' entries →
          Elf.dynamicTable im'.file i' = Elf.dynamicTable im.file i := by
  refine ⟨_, Elf.fromReader_eq hv, rfl, rfl, Elf.namedSections_header hv.names,
    Elf.namedSections_name hv.names, ?_⟩
  intro i table entries hd
  refine ⟨Elf.load_image hv hd im.segments, fun t => Dynamic.strings_decoded t entries, ?_⟩
  intro im' i' table' hv' hd'
  rw [Elf.dynamicTable_image hv hd, Elf.dynamicTable_image hv' hd']

/-! ## A small object in the four encodings -/

namespace Sample

/-- One program header, a DYNAMIC section and the string table it is linked to,
which holds the section names as well; the tables lie behind one another. -/
def entries : List DynEntry := [
  .string .needed (by decide) 1 (ascii "liba.so"),
  .string .runpath (by decide) 9 (ascii "/opt"),
  .flags1 ⟨0x8000001#64, by decide⟩,
  .other ⟨5, by decide⟩ (by decide) 0x1234,
  .null 0,
  .string .needed (by decide) 5 (ascii ".so")]

def table : List UInt8 :=
  0 :: (ascii "liba.so" ++ 0 :: (ascii "/opt" ++ 0 :: (ascii ".dynamic" ++ 0 :: ascii ".strtab")))

def headerSize : Class → Nat
  | .class32 => 52
  | .class64 => 64

def header (c : Class) (e : Endianness) : Header :=
  { identMagic := elfMagic, identClass := c, identEndianness := e, identVersion := 1,
    identAbi := ⟨0, by decide⟩, identAbiversion := 0, etype := ⟨3, by decide⟩,
    machine := ⟨62, by decide +kernel⟩, version := 1, entry := 0,
    phoff := UInt64.ofNat (headerSize c),
    shoff := UInt64.ofNat (headerSize c + SegmentHeader.recordSize c),
    flags := Bitflags.fromBitsTruncate _ 0, ehsize := UInt16.ofNat (headerSize c),
    phentsize := UInt16.ofNat (SegmentHeader.recordSize c), phnum := 1,
    shentsize := UInt16.ofNat (SectionHeader.recordSize c), shnum := 2, shstrndx := 1 }

def segment : SegmentHeader :=
  { phtype := ⟨1, by decide⟩, flags := ⟨5#64, by decide⟩, offset := 0, vaddr := 0x400000,
    paddr := 0x400000, filesz := 0x200, memsz := 0x300, align := 0x1000 }

def dynamicBytes (c : Class) (e : Endianness) : List UInt8 :=
  entries.flatMap (DynEntry.encode c e.order)

def dynamicOffset (c : Class) : Nat :=
  headerSize c + SegmentHeader.recordSize c + 2 * SectionHeader.recordSize c

def dynamicSection (c : Class) (e : Endianness) : SectionHeader :=
  { SectionHeader.default with
    name := 14, shtype := SectionType.dynamic, offset := UInt64.ofNat (dynamicOffset c),
    size := UInt64.ofNat (dynamicBytes c e).length, link := 1 }

def strtabSection (c : Class) (e : Endianness) : SectionHeader :=
  { SectionHeader.default with
    name := 23, shtype := SectionType.strtab,
    offset := UInt64.ofNat (dynamicOffset c + (dynamicBytes c e).length),
    size := UInt64.ofNat table.length }

def sections (c : Class) (e : Endianness) : List SectionHeader :=
  [dynamicSection c e, strtabSection c e]

def image (c : Class) (e : Endianness) : Image :=
  let pad := List.replicate 7 0
  { header := header c e, pad, segments := [segment], sections := sections c e, shstrtab := table,
    names := [ascii ".dynamic", ascii ".strtab"],
    file := (header c e).encode pad ++ segment.encode c e.order ++
      (sections c e).flatMap (SectionHeader.encode c e.order) ++ dynamicBytes c e ++ table }

theorem image_holds_strtab (c : Class) (e : Endianness) :
    (image c e).Holds 1 (strtabSection c e) table := by
  cases c <;> cases e <;> decide +kernel

theorem image_holds_dynamic (c : Class) (e : Endianness) :
    (image c e).Holds 0 (dynamicSection c e) (dynamicBytes c e) := by
  cases c <;> cases e <;> decide +kernel

theorem header_wellFormed (c : Class) (e : Endianness) : (header c e).WellFormed where
  magic := rfl
  identVersion := rfl
  version := rfl
  entry := by cases c <;> cases e <;> decide
  phoff := by cases c <;> cases e <;> decide
  shoff := by cases c <;> cases e <;> decide

theorem image_valid (c : Class) (e : Endianness) : (image c e).Valid where
  header := header_wellFormed c e
  pad := rfl
  phentsize := by cases c <;> rfl
  phnum := rfl
  shentsize := by cases c <;> rfl
  shnum := rfl
  segmentsFit := by cases c <;> cases e <;> decide +kernel
  sectionsFit := by cases c <;> cases e <;> decide +kernel
  fileSize := by cases c <;> cases e <;> decide +kernel
  headerAt := by cases c <;> cases e <;> decide +kernel
  segmentsAt := by cases c <;> cases e <;> decide +kernel
  sectionsAt := by cases c <;> cases e <;> decide +kernel
  shstrtabAt := ⟨strtabSection c e, image_holds_strtab c e⟩
  names := .cons (by cases c <;> cases e <;> decide +kernel)
    (.cons (by cases c <;> cases e <;> decide +kernel) .nil)

theorem image_hasDynamic (c : Class) (e : Endianness) :
    (image c e).HasDynamic 0 table entries where
  dynamic := ⟨dynamicSection c e, image_holds_dynamic c e, rfl, UInt32.zero_ne_one.symm,
    strtabSection c e, image_holds_strtab c e, rfl, rfl⟩
  fits := by cases c <;> cases e <;> decide +kernel

/-- The narrow big-endian object is read, and loads to the table of the wide
little-endian one. -/
theorem fromReader_load_image_sample :
    (∃ elf, Elf.fromReader (image .class32 .bigEndian).file = .ok elf ∧
      elf.sections.map Section.name = [ascii ".dynamic", ascii ".strtab"]) ∧
    Dynamic.strings .needed ((DynEntry.upToNull entries).map DynEntry.decoded) =
      [ascii "liba.so"] ∧
    Elf.dynamicTable (image .class64 .littleEndian).file 0 =
      Elf.dynamicTable (image .class32 .bigEndian).file 0 := by
  obtain ⟨elf, hread, _, _, _, hnames, hload⟩ :=
    Elf.fromReader_load_image (image .class32 .bigEndian) (image_valid _ _)
  obtain ⟨_, hstrings, hsame⟩ := hload 0 table entries (image_hasDynamic _ _)
  refine ⟨⟨elf, hread, hnames⟩, ?_, hsame _ 0 table (image_valid _ _) (image_hasDynamic _ _)⟩
  rw [hstrings]
  rfl

end Sample

end Elfkit
end DracutInstall

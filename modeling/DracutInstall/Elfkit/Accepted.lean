/-
What `Elf::from_reader` accepts.

The reader takes a file exactly when the file is laid out as it reads it: `Lays` says
where in the file the header, the tables and the names are, and that they are the
encodings of what is returned.  The padding of the header and the flag bits that are
dropped are all that is left open.
-/
import DracutInstall.Lib.Accepts
import DracutInstall.Elfkit.Strides

namespace DracutInstall
namespace Elfkit

open ByteCodec Rust

theorem run_ensure_eq_ok {ε : Type} {p : Prop} [Decidable p] {e : ε} {bs rest : List UInt8} {u : Unit}
    (h : (ensure p e).run bs = .ok (u, rest)) : p ∧ rest = bs := by
  rw [ensure] at h
  split at h
  · rename_i hp
    obtain ⟨_, rfl⟩ := run_pure_eq_ok h
    exact ⟨hp, rfl⟩
  · cases h

theorem run_u16_eq_ok {ε : Type} {eof : ε} {o : ByteOrder} {bs rest : List UInt8} {x : UInt16}
    (h : (readU16 eof o).run bs = .ok (x, rest)) : bs = toBytes o 2 x.toNat ++ rest := by
  obtain ⟨chunk, mid, hchunk, hlast⟩ := run_bind_eq_ok.mp h
  obtain ⟨rfl, rfl⟩ := run_pure_eq_ok hlast
  obtain ⟨hlen, rfl⟩ := run_exact_eq_ok hchunk
  have hlt := ofBytes_lt o chunk
  have hback := toBytes_ofBytes o chunk
  rw [hlen] at hlt hback
  have hfits : ofBytes o chunk < 2 ^ 16 := hlt
  rw [UInt16.toNat_ofNat', Nat.mod_eq_of_lt hfits, hback]

/-! ## The header -/

namespace Header

/-- The bytes are those of the header, with any padding and any unknown flags. -/
def Bytes (chunk : List UInt8) (h : Header) : Prop :=
  h.WellFormed ∧ ∃ pad fl, pad.length = 7 ∧
    Bitflags.fromBitsTruncate headerFlagBits fl.toBitVec = h.flags ∧ chunk = h.encodeRaw pad fl

/-- The identification is its fields and what is behind them. -/
theorem ident_split {b : List UInt8} (h : 9 ≤ b.length) :
    b = b.take 4 ++ [b.getD 4 0, b.getD 5 0, b.getD 6 0, b.getD 7 0, b.getD 8 0] ++ b.drop 9 := by
  have hget (i : Nat) (hi : i < b.length) : b.drop i = b.getD i 0 :: b.drop (i + 1) := by
    rw [List.drop_eq_getElem_cons hi, List.getD_eq_getElem?_getD, List.getElem?_eq_getElem hi,
      Option.getD_some]
  have hdrop : b.drop 4 =
      [b.getD 4 0, b.getD 5 0, b.getD 6 0, b.getD 7 0, b.getD 8 0] ++ b.drop 9 := by
    rw [hget 4 (by omega), hget 5 (by omega), hget 6 (by omega), hget 7 (by omega),
      hget 8 (by omega)]
    rfl
  rw [List.append_assoc, ← hdrop, List.take_append_drop]

theorem class_toU8 {b : UInt8} {c : Class} (h : Class.fromU8 b = some c) : c.toU8 = b := by
  rw [Class.fromU8] at h
  split at h
  · rename_i hb
    cases h
    exact hb.symm
  · split at h
    · rename_i hb
      cases h
      exact hb.symm
    · cases h

theorem endianness_toU8 {b : UInt8} {e : Endianness} (h : Endianness.fromU8 b = some e) :
    e.toU8 = b := by
  rw [Endianness.fromU8] at h
  split at h
  · rename_i hb
    cases h
    exact hb.symm
  · split at h
    · rename_i hb
      cases h
      exact hb.symm
    · cases h

/-- A header is the bytes it was read from, but for its padding and unknown flags. -/
theorem bytes_of_run {bs rest : List UInt8} {h : Header}
    (hrun : Header.fromReader.run bs = .ok (h, rest)) :
    ∃ chunk, Bytes chunk h ∧ bs = chunk ++ rest := by
  obtain ⟨b, bs₁, hb, hrun⟩ := run_bind_eq_ok.mp hrun
  obtain ⟨_, _, hmagic, hrun⟩ := run_bind_eq_ok.mp hrun
  obtain ⟨identClass, _, hclass, hrun⟩ := run_bind_eq_ok.mp hrun
  obtain ⟨identEndianness, _, hendian, hrun⟩ := run_bind_eq_ok.mp hrun
  obtain ⟨_, _, hidentVersion, hrun⟩ := run_bind_eq_ok.mp hrun
  obtain ⟨identAbi, _, habi, hrun⟩ := run_bind_eq_ok.mp hrun
  obtain ⟨etypeWord, bs₂, hetypeWord, hrun⟩ := run_bind_eq_ok.mp hrun
  obtain ⟨etype, _, hetype, hrun⟩ := run_bind_eq_ok.mp hrun
  obtain ⟨machineWord, bs₃, hmachineWord, hrun⟩ := run_bind_eq_ok.mp hrun
  obtain ⟨machine, _, hmachine, hrun⟩ := run_bind_eq_ok.mp hrun
  obtain ⟨version, bs₄, hversion, hrun⟩ := run_bind_eq_ok.mp hrun
  obtain ⟨_, _, hversionOk, hrun⟩ := run_bind_eq_ok.mp hrun
  obtain ⟨entry, bs₅, hentry, hrun⟩ := run_bind_eq_ok.mp hrun
  obtain ⟨phoff, bs₆, hphoff, hrun⟩ := run_bind_eq_ok.mp hrun
  obtain ⟨shoff, bs₇, hshoff, hrun⟩ := run_bind_eq_ok.mp hrun
  obtain ⟨fl, bs₈, hfl, hrun⟩ := run_bind_eq_ok.mp hrun
  obtain ⟨ehsize, bs₉, hehsize, hrun⟩ := run_bind_eq_ok.mp hrun
  obtain ⟨phentsize, bs₁₀, hphentsize, hrun⟩ := run_bind_eq_ok.mp hrun
  obtain ⟨phnum, bs₁₁, hphnum, hrun⟩ := run_bind_eq_ok.mp hrun
  obtain ⟨shentsize, bs₁₂, hshentsize, hrun⟩ := run_bind_eq_ok.mp hrun
  obtain ⟨shnum, bs₁₃, hshnum, hrun⟩ := run_bind_eq_ok.mp hrun
  obtain ⟨shstrndx, bs₁₄, hshstrndx, hrun⟩ := run_bind_eq_ok.mp hrun
  obtain ⟨rfl, rfl⟩ := run_pure_eq_ok hrun
  obtain ⟨hlen, hbs⟩ := run_exact_eq_ok hb
  obtain ⟨hmagicOk, rfl⟩ := run_ensure_eq_ok hmagic
  obtain ⟨hclassOk, rfl⟩ := run_orFail_eq_ok hclass
  obtain ⟨hendianOk, rfl⟩ := run_orFail_eq_ok hendian
  obtain ⟨hidentVersionOk, rfl⟩ := run_ensure_eq_ok hidentVersion
  obtain ⟨habiOk, rfl⟩ := run_orFail_eq_ok habi
  obtain ⟨hetypeOk, rfl⟩ := run_orFail_eq_ok hetype
  obtain ⟨hmachineOk, rfl⟩ := run_orFail_eq_ok hmachine
  obtain ⟨hversionOne, rfl⟩ := run_ensure_eq_ok hversionOk
  obtain ⟨hentry, hentryFits⟩ := run_uclass_eq_ok hentry
  obtain ⟨hphoff, hphoffFits⟩ := run_uclass_eq_ok hphoff
  obtain ⟨hshoff, hshoffFits⟩ := run_uclass_eq_ok hshoff
  refine ⟨_, ⟨⟨hmagicOk, hidentVersionOk, hversionOne, hentryFits, hphoffFits, hshoffFits⟩, b.drop 9,
    fl, by rw [List.length_drop, hlen], rfl, rfl⟩, ?_⟩
  have habiWord : UInt8.ofNat identAbi.val = b.getD 7 0 := by
    rw [known_eq habiOk, UInt8.ofNat_toNat]
  have hetypeNat : UInt16.ofNat etype.val = etypeWord := by
    rw [known_eq hetypeOk, UInt16.ofNat_toNat]
  have hmachineNat : UInt16.ofNat machine.val = machineWord := by
    rw [known_eq hmachineOk, UInt16.ofNat_toNat]
  have hident := ident_split (b := b) (by omega)
  rw [hbs, run_u16_eq_ok hetypeWord, run_u16_eq_ok hmachineWord, run_u32_eq_ok hversion, hentry,
    hphoff, hshoff, run_u32_eq_ok hfl, run_u16_eq_ok hehsize, run_u16_eq_ok hphentsize,
    run_u16_eq_ok hphnum, run_u16_eq_ok hshentsize, run_u16_eq_ok hshnum, run_u16_eq_ok hshstrndx]
  have hclassByte : identClass.toU8 = b.getD 4 0 := class_toU8 hclassOk
  have hendianByte : identEndianness.toU8 = b.getD 5 0 := endianness_toU8 hendianOk
  simp only [encodeRaw, encodeIdent, order, hetypeNat, hmachineNat, habiWord, hclassByte,
    hendianByte, List.append_assoc]
  conv_lhs => rw [hident]
  simp only [List.append_assoc]

theorem accepts : Accepts Header.fromReader Bytes where
  reads := by
    rintro _ h ⟨hw, pad, fl, hpad, hflags, rfl⟩
    exact reads_raw hw hpad hflags
  taken _ _ _ hrun := bytes_of_run hrun

end Header

/-! ## The tables -/

/-- The bytes are those of the program header, with any unknown flags. -/
def SegmentHeader.Bytes (eh : Header) (chunk : List UInt8) (s : SegmentHeader) : Prop :=
  s.Fits eh.identClass ∧ ∃ fl, fl.toNat < 2 ^ 32 ∧
    Bitflags.fromBitsTruncate segmentFlagBits fl.toBitVec = s.flags ∧
    chunk = s.encodeRaw eh.identClass eh.order fl

theorem SegmentHeader.accepts (eh : Header) :
    Accepts (SegmentHeader.fromReader eh) (SegmentHeader.Bytes eh) where
  reads := by
    rintro _ s ⟨hs, fl, hlt, hflags, rfl⟩
    exact SegmentHeader.reads_raw eh hs hlt hflags
  taken bs s rest hrun := by
    obtain ⟨hs, fl, hlt, hflags, hbs⟩ := SegmentHeader.encode_of_run hrun
    exact ⟨_, ⟨hs, fl, hlt, hflags, rfl⟩, hbs⟩

/-- The bytes are those of the section header. -/
def SectionHeader.Bytes (eh : Header) (chunk : List UInt8) (sh : SectionHeader) : Prop :=
  sh.Fits eh.identClass ∧ chunk = sh.encode eh.identClass eh.order

theorem SectionHeader.accepts (eh : Header) :
    Accepts (SectionHeader.fromReader eh) (SectionHeader.Bytes eh) where
  reads := by
    rintro _ sh ⟨hsh, rfl⟩
    exact SectionHeader.reads_fromReader eh hsh
  taken bs sh rest hrun := by
    obtain ⟨hbs, hsh⟩ := SectionHeader.encode_of_run hrun
    exact ⟨_, ⟨hsh, rfl⟩, hbs⟩

/-- The chunk is the `n` bytes at the offset, which a file can have. -/
def ChunkAt (file : List UInt8) (off : UInt64) (n : Nat) (chunk : List UInt8) : Prop :=
  off.toNat < 2 ^ 63 ∧ n < 2 ^ 63 ∧ chunk.length = n ∧ chunk <+: file.drop off.toNat

theorem readAt_iff {file chunk : List UInt8} {off : UInt64} {n : Nat} :
    readAt file off n = .ok chunk ↔ ChunkAt file off n chunk := by
  rw [readAt, seekStart, allocZeroed, ChunkAt]
  by_cases hoff : off.toNat < 2 ^ 63
  · by_cases hn : n < 2 ^ 63
    · rw [if_pos hoff, if_pos hn, Outcome.ok_bind, Outcome.ok_bind]
      constructor
      · intro h
        obtain ⟨⟨chunk', rest⟩, hchunk, hlast⟩ := Outcome.bind_eq_ok.mp h
        cases hlast
        obtain ⟨hlen, hfile⟩ := run_exact_eq_ok hchunk
        exact ⟨hoff, hn, hlen, rest, hfile.symm⟩
      · rintro ⟨_, _, rfl, rest, hfile⟩
        rw [← hfile, Reads.exact eof chunk rest]
        rfl
    · rw [if_pos hoff, if_neg hn, Outcome.ok_bind]
      exact iff_of_false (fun h => by cases h) fun h => hn h.2.1
  · rw [if_neg hoff]
    exact iff_of_false (fun h => by cases h) fun h => hoff h.1

/-- A table of which `n` bytes are read: the encodings of the records, and what is left. -/
def TableAt {α : Type} (file : List UInt8) (off : UInt64) (n count : Nat)
    (enc : List UInt8 → α → Prop) (as : List α) : Prop :=
  as.length = count ∧ ∃ table rest, ChunkAt file off n (table ++ rest) ∧ Encodings enc table as

theorem readTable_iff {α : Type} {r : Reader Error α} {enc : List UInt8 → α → Prop}
    (h : Accepts r enc) {file : List UInt8} {off : UInt64} {n count : Nat} {as : List α} :
    (∃ buf rest, readAt file off n = .ok buf ∧ (readMany r count).run buf = .ok (as, rest)) ↔
      TableAt file off n count enc as := by
  constructor
  · rintro ⟨buf, rest, hbuf, hrun⟩
    obtain ⟨table, ⟨hlen, henc⟩, rfl⟩ := (h.many count).run_iff.mp hrun
    exact ⟨hlen, table, rest, readAt_iff.mp hbuf, henc⟩
  · rintro ⟨hlen, table, rest, hchunk, henc⟩
    exact ⟨_, rest, readAt_iff.mpr hchunk, (h.many count).run_iff.mpr ⟨table, ⟨hlen, henc⟩, rfl⟩⟩

namespace Elf

/-! ## The names -/

/-- The name that the table of names has for a section. -/
def nameIn (table : List UInt8) (sh : SectionHeader) : List UInt8 :=
  untilNul (table.drop sh.name.toNat)

theorem nameSections_iff {table : List UInt8} {shs : List SectionHeader} {secs : List Section} :
    nameSections table (shs.map unnamedSection) = .ok secs ↔
      (∀ sh ∈ shs, sh.name.toNat ≤ table.length) ∧
        secs = shs.map fun sh => namedSection sh (nameIn table sh) := by
  induction shs generalizing secs with
  | nil => simp [nameSections, eq_comm]
  | cons sh shs ih =>
      rw [List.map_cons, nameSections, List.forall_mem_cons, List.map_cons]
      by_cases hname : sh.name.toNat ≤ table.length
      · have hone : sectionName table (unnamedSection sh) =
            .ok (namedSection sh (nameIn table sh)) := if_pos hname
        rw [hone, Outcome.ok_bind, Outcome.bind_eq_ok]
        constructor
        · rintro ⟨rest, hrest, hlast⟩
          cases hlast
          obtain ⟨hall, rfl⟩ := ih.mp hrest
          exact ⟨⟨hname, hall⟩, rfl⟩
        · rintro ⟨⟨_, hall⟩, rfl⟩
          exact ⟨_, ih.mpr ⟨hall, rfl⟩, rfl⟩
      · have hone : sectionName table (unnamedSection sh) = .panic := if_neg hname
        rw [hone]
        exact iff_of_false (fun h => by cases h) fun h => hname h.1.1

/-! ## The file -/

/-- Where the file has the parts of the object, and that they are its encodings.  The
records of a table are behind one another, whatever entry size the header has. -/
structure Lays (file : List UInt8) (elf : Elf) : Prop where
  header : ∃ chunk, Header.Bytes chunk elf.header ∧ chunk <+: file
  segments : TableAt file elf.header.phoff
    (elf.header.phentsize.toNat * elf.header.phnum.toNat) elf.header.phnum.toNat
    (SegmentHeader.Bytes elf.header) elf.segments
  sections : ∃ shs, TableAt file elf.header.shoff
      (elf.header.shnum.toNat * elf.header.shentsize.toNat) elf.header.shnum.toNat
      (SectionHeader.Bytes elf.header) shs ∧
    ∃ sh table, shs[elf.header.shstrndx.toNat]? = some sh ∧
      ChunkAt file sh.offset sh.size.toNat table ∧
      (∀ sh ∈ shs, sh.name.toNat ≤ table.length) ∧
      elf.sections = shs.map fun sh => namedSection sh (nameIn table sh)

/-- `from_reader` returns an object exactly when the file has it laid out. -/
theorem fromReader_lays_iff (file : List UInt8) (elf : Elf) :
    fromReader file = .ok elf ↔ Lays file elf := by
  constructor
  · intro h
    rw [fromReader] at h
    obtain ⟨⟨header, rest⟩, hheader, h⟩ := Outcome.bind_eq_ok.mp h
    obtain ⟨buf, hbuf, h⟩ := Outcome.bind_eq_ok.mp h
    obtain ⟨⟨segments, rest₁⟩, hsegments, h⟩ := Outcome.bind_eq_ok.mp h
    obtain ⟨buf', hbuf', h⟩ := Outcome.bind_eq_ok.mp h
    obtain ⟨⟨shs, rest₂⟩, hshs, h⟩ := Outcome.bind_eq_ok.mp h
    obtain ⟨sec, hsec, h⟩ := Outcome.bind_eq_ok.mp h
    obtain ⟨table, htable, h⟩ := Outcome.bind_eq_ok.mp h
    obtain ⟨sections, hsections, h⟩ := Outcome.bind_eq_ok.mp h
    cases h
    obtain ⟨chunk, hchunk, hfile⟩ := Header.accepts.run_iff.mp hheader
    obtain ⟨hnames, rfl⟩ := nameSections_iff.mp hsections
    rw [List.getElem?_map] at hsec
    cases hsh : shs[header.shstrndx.toNat]? with
    | none =>
        rw [hsh] at hsec
        cases hsec
    | some sh =>
        rw [hsh] at hsec
        cases hsec
        exact ⟨⟨chunk, hchunk, rest, hfile.symm⟩,
          (readTable_iff (SegmentHeader.accepts header)).mp ⟨buf, rest₁, hbuf, hsegments⟩,
          shs, (readTable_iff (SectionHeader.accepts header)).mp ⟨buf', rest₂, hbuf', hshs⟩,
          sh, table, hsh, readAt_iff.mp htable, hnames, rfl⟩
  · intro h
    obtain ⟨header, segments, sections⟩ := elf
    obtain ⟨chunk, hchunk, rest, hfile⟩ := h.header
    obtain ⟨shs, hshs, sh, table, hsh, htable, hnames, hsections⟩ := h.sections
    obtain ⟨buf, rest₁, hbuf, hsegments⟩ :=
      (readTable_iff (SegmentHeader.accepts header)).mpr h.segments
    obtain ⟨buf', rest₂, hbuf', hshs⟩ := (readTable_iff (SectionHeader.accepts header)).mpr hshs
    have hheader : Header.fromReader.run file = .ok (header, rest) :=
      Header.accepts.run_iff.mpr ⟨chunk, hchunk, hfile.symm⟩
    have hsec : (shs.map unnamedSection)[header.shstrndx.toNat]? = some (unnamedSection sh) := by
      rw [List.getElem?_map, hsh]
      rfl
    have hnamed := nameSections_iff.mpr ⟨hnames, hsections⟩
    have htable : readAt file (unnamedSection sh).header.offset
        (unnamedSection sh).header.size.toNat = .ok table := readAt_iff.mpr htable
    simp only [fromReader, hheader, Outcome.ok_bind, hbuf, hsegments, hbuf', hshs, hsec,
      Outcome.okOr_some, htable, hnamed]

end Elf
end Elfkit
end DracutInstall

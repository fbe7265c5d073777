/-
What a malformed object or a malformed cache does to its reader.

`Elf::from_reader` takes the offset and the size of the table of the section
names, and every name, as the file has them, and `LdsoCache::read_ld_so_cache`
the places of its strings.  Everything else the two read is checked, so that
they panic where such a number leads out of its table and nowhere else.
-/
import Mathlib.Tactic.ByContra
import DracutInstall.Elfkit.LoadFailure
import DracutInstall.Elfkit.LdSoCache

namespace DracutInstall
namespace Elfkit

open ByteCodec Rust UnixPath

/-! ## The tables of an object -/

theorem returns_uclass (c : Class) (o : ByteOrder) : Returns (readUclass c o) := by
  cases c with
  | class32 => exact (Returns.u32 eof o).bind fun _ => .pure _
  | class64 => exact .u64 eof o

theorem returns_header : Returns Header.fromReader := by
  refine (Returns.exact _ _).bind fun b => (Returns.ensure _ _).bind fun _ => ?_
  refine (Returns.orFail _ _).bind fun c => (Returns.orFail _ _).bind fun e => ?_
  refine (Returns.ensure _ _).bind fun _ => (Returns.orFail _ _).bind fun _ => ?_
  refine (Returns.u16 _ _).bind fun _ => (Returns.orFail _ _).bind fun _ => ?_
  refine (Returns.u16 _ _).bind fun _ => (Returns.orFail _ _).bind fun _ => ?_
  refine (Returns.u32 _ _).bind fun _ => (Returns.ensure _ _).bind fun _ => ?_
  refine (returns_uclass c _).bind fun _ => (returns_uclass c _).bind fun _ => ?_
  refine (returns_uclass c _).bind fun _ => (Returns.u32 _ _).bind fun _ => ?_
  refine (Returns.u16 _ _).bind fun _ => (Returns.u16 _ _).bind fun _ => ?_
  refine (Returns.u16 _ _).bind fun _ => (Returns.u16 _ _).bind fun _ => ?_
  refine (Returns.u16 _ _).bind fun _ => (Returns.u16 _ _).bind fun _ => ?_
  exact .pure _

theorem returns_segment (eh : Header) : Returns (SegmentHeader.fromReader eh) := by
  have hword : Returns (readU32As64 eh.order) := (Returns.u32 eof eh.order).bind fun _ => .pure _
  have hwide : Returns (readU64 eof eh.order) := .u64 eof eh.order
  refine (Returns.u32 _ _).bind fun _ => (Returns.orFail _ _).bind fun _ => ?_
  cases eh.identClass with
  | class64 =>
      refine hword.bind fun _ => hwide.bind fun _ => hwide.bind fun _ => hwide.bind fun _ => ?_
      exact hwide.bind fun _ => hwide.bind fun _ => hwide.bind fun _ => .pure _
  | class32 =>
      refine hword.bind fun _ => hword.bind fun _ => hword.bind fun _ => hword.bind fun _ => ?_
      exact hword.bind fun _ => hword.bind fun _ => hword.bind fun _ => .pure _

theorem returns_section (eh : Header) : Returns (SectionHeader.fromReader eh) := by
  have hword : Returns (readU32 eof eh.order) := .u32 eof eh.order
  have huclass := returns_uclass eh.identClass eh.order
  refine hword.bind fun _ => hword.bind fun _ => huclass.bind fun _ => ?_
  refine (Returns.orFail _ _).bind fun _ => ?_
  refine huclass.bind fun _ => huclass.bind fun _ => huclass.bind fun _ => hword.bind fun _ => ?_
  exact hword.bind fun _ => huclass.bind fun _ => huclass.bind fun _ => .pure _

/-- Only a buffer that no vector can hold is a panic. -/
theorem readAt_eq_panic {file : List UInt8} {off : UInt64} {n : Nat} :
    readAt file off n = .panic ↔ off.toNat < 2 ^ 63 ∧ ¬ n < 2 ^ 63 := by
  have hread : (readExact eof n).run (file.drop off.toNat) ≠ .panic := Returns.exact eof n _
  rw [readAt, seekStart]
  by_cases hoff : off.toNat < 2 ^ 63
  · rw [if_pos hoff, Outcome.ok_bind, allocZeroed]
    by_cases hn : n < 2 ^ 63
    · rw [if_pos hn, Outcome.ok_bind, Outcome.bind_eq_panic]
      constructor
      · rintro (h | ⟨_, _, h⟩)
        · exact absurd h hread
        · cases h
      · exact fun h => absurd hn h.2
    · rw [if_neg hn]
      exact iff_of_true rfl ⟨hoff, hn⟩
  · rw [if_neg hoff]
    constructor
    · intro h
      cases h
    · exact fun h => absurd h.1 hoff

namespace Elf

theorem nameSections_eq_panic {shstrtab : List UInt8} {secs : List Section} :
    nameSections shstrtab secs = .panic ↔
      ∃ sec ∈ secs, ¬ sec.header.name.toNat ≤ shstrtab.length := by
  induction secs with
  | nil => exact iff_of_false (fun h => by cases h) (fun ⟨_, h, _⟩ => by cases h)
  | cons sec secs ih =>
      rw [nameSections, sectionName]
      by_cases hname : sec.header.name.toNat ≤ shstrtab.length
      · rw [if_pos hname, Outcome.ok_bind, Outcome.bind_eq_panic, ih]
        constructor
        · rintro (⟨bad, hbad, hout⟩ | ⟨_, _, h⟩)
          · exact ⟨bad, List.mem_cons_of_mem _ hbad, hout⟩
          · cases h
        · rintro ⟨bad, hbad, hout⟩
          rcases List.mem_cons.mp hbad with rfl | hbad
          · exact absurd hname hout
          · exact .inl ⟨bad, hbad, hout⟩
      · rw [if_neg hname]
        exact iff_of_true rfl ⟨sec, List.mem_cons_self, hname⟩

/-- The header and the section headers of a file whose tables can be read. -/
structure Tables (file : List UInt8) (header : Header) (shs : List SectionHeader) : Prop where
  parsed : ∃ rest, Header.fromReader.run file = .ok (header, rest)
  segments : ∃ buf out,
    readAt file header.phoff (header.phentsize.toNat * header.phnum.toNat) = .ok buf ∧
    (readMany (SegmentHeader.fromReader header) header.phnum.toNat).run buf = .ok out
  sections : ∃ buf rest,
    readAt file header.shoff (header.shnum.toNat * header.shentsize.toNat) = .ok buf ∧
    (readMany (SectionHeader.fromReader header) header.shnum.toNat).run buf = .ok (shs, rest)

/-- A vector can hold the table of the section names, unless its offset is one
that `seek` refuses; and if the table is in the file, every name starts in it or
at its end. -/
def NamesInTable (file : List UInt8) (header : Header) (shs : List SectionHeader) : Prop :=
  ∀ sec, shs[header.shstrndx.toNat]? = some sec →
    (sec.offset.toNat < 2 ^ 63 → sec.size.toNat < 2 ^ 63) ∧
    (Readable file sec → ∀ sh ∈ shs, sh.name.toNat ≤ sec.size.toNat)

/-- A table of fewer than `2 ^ 16` records of fewer than `2 ^ 16` bytes. -/
theorem readTable_ne_panic {file : List UInt8} {off : UInt64} {n m : UInt16} :
    readAt file off (n.toNat * m.toNat) ≠ .panic := by
  intro h
  have hn : n.toNat < 2 ^ 16 := n.toNat_lt
  have hm : m.toNat < 2 ^ 16 := m.toNat_lt
  have hlt : n.toNat * m.toNat < 2 ^ 16 * 2 ^ 16 := Nat.mul_lt_mul'' hn hm
  refine (readAt_eq_panic.mp h).2 (Nat.lt_of_lt_of_le hlt ?_)
  rw [← Nat.pow_add]
  exact Nat.pow_le_pow_right (by decide) (by decide)

/-- The end of `from_reader`: the names, from the table that has them. -/
theorem readNames_eq_panic {file : List UInt8} {sec : SectionHeader} {shs : List SectionHeader} :
    (do
      let shstrtab ← readAt file sec.offset sec.size.toNat
      nameSections shstrtab (shs.map unnamedSection)) = .panic ↔
    ¬ ((sec.offset.toNat < 2 ^ 63 → sec.size.toNat < 2 ^ 63) ∧
      (Readable file sec → ∀ sh ∈ shs, sh.name.toNat ≤ sec.size.toNat)) := by
  rw [Outcome.bind_eq_panic, readAt_eq_panic]
  have hnames (buf : List UInt8) : nameSections buf (shs.map unnamedSection) = .panic ↔
      ∃ sh ∈ shs, ¬ sh.name.toNat ≤ buf.length := by
    rw [nameSections_eq_panic]
    constructor
    · rintro ⟨_, hmem, hout⟩
      obtain ⟨sh, hsh, rfl⟩ := List.mem_map.mp hmem
      exact ⟨sh, hsh, hout⟩
    · rintro ⟨sh, hsh, hout⟩
      exact ⟨_, List.mem_map_of_mem hsh, hout⟩
  have hlen (h : Readable file sec) : (sectionBytes file sec).length = sec.size.toNat := by
    rw [sectionBytes, List.length_take, List.length_drop]
    exact Nat.min_eq_left h.2.2
  constructor
  · rintro (⟨hoff, hsize⟩ | ⟨buf, hbuf, hpanic⟩) ⟨hvec, hall⟩
    · exact hsize (hvec hoff)
    · obtain ⟨hread, rfl⟩ := readAt_eq_ok_iff.mp hbuf
      obtain ⟨sh, hsh, hout⟩ := (hnames _).mp hpanic
      rw [hlen hread] at hout
      exact hout (hall hread sh hsh)
  · intro hnot
    by_cases hvec : sec.offset.toNat < 2 ^ 63 → sec.size.toNat < 2 ^ 63
    · by_cases hread : Readable file sec
      · refine .inr ⟨_, readAt_eq_ok_iff.mpr ⟨hread, rfl⟩, (hnames _).mpr ?_⟩
        rw [hlen hread]
        by_contra hgood
        refine hnot ⟨hvec, fun _ sh hsh => ?_⟩
        by_contra hout
        exact hgood ⟨sh, hsh, hout⟩
      · exact absurd ⟨hvec, fun h => absurd h hread⟩ hnot
    · rw [Classical.not_imp] at hvec
      exact .inl hvec

/-- With its tables read, `from_reader` goes on to the section names. -/
theorem fromReader_tables {file : List UInt8} {header : Header} {shs : List SectionHeader}
    (ht : Tables file header shs) :
    fromReader file = .panic ↔ ¬ NamesInTable file header shs := by
  obtain ⟨_, hheader⟩ := ht.parsed
  obtain ⟨_, _, hphbuf, hsegments⟩ := ht.segments
  obtain ⟨_, _, hshbuf, hsections⟩ := ht.sections
  rw [fromReader, hheader, Outcome.ok_bind]
  simp only [hphbuf, hsegments, hshbuf, hsections, Outcome.ok_bind]
  rw [List.getElem?_map]
  cases hstr : shs[header.shstrndx.toNat]? with
  | none =>
      refine iff_of_false (fun h => by cases h) (Classical.not_not.mpr fun sec h => ?_)
      rw [hstr] at h
      cases h
  | some sec =>
      have hall : NamesInTable file header shs ↔
          ((sec.offset.toNat < 2 ^ 63 → sec.size.toNat < 2 ^ 63) ∧
            (Readable file sec → ∀ sh ∈ shs, sh.name.toNat ≤ sec.size.toNat)) := by
        refine ⟨fun h => h sec hstr, fun h sec' hsec' => ?_⟩
        obtain rfl : sec = sec' := Option.some.inj (hstr.symm.trans hsec')
        exact h
      rw [hall, ← readNames_eq_panic, Option.map_some, Outcome.okOr_some, Outcome.ok_bind,
        Outcome.bind_eq_panic, Outcome.bind_eq_panic]
      refine or_congr Iff.rfl (exists_congr fun buf => and_congr_right fun _ => ?_)
      rw [Outcome.bind_eq_panic]
      refine or_iff_left ?_
      rintro ⟨_, _, h⟩
      cases h

/-- `from_reader` comes back on a file if and only if the table of its section
names, when the file gets that far, is one that holds every name. -/
theorem fromReader_returns_iff (file : List UInt8) :
    fromReader file ≠ .panic ↔
      ∀ header shs, Tables file header shs → NamesInTable file header shs := by
  constructor
  · intro hret header shs ht
    by_contra hnot
    exact hret ((fromReader_tables ht).mpr hnot)
  · intro hall hpanic
    have hstart := hpanic
    rw [fromReader] at hstart
    rcases Outcome.bind_eq_panic.mp hstart with h | ⟨⟨header, rest⟩, hheader, h⟩
    · exact returns_header file h
    · rcases Outcome.bind_eq_panic.mp h with h | ⟨phbuf, hphbuf, h⟩
      · exact readTable_ne_panic h
      · rcases Outcome.bind_eq_panic.mp h with h | ⟨segments, hsegments, h⟩
        · exact (returns_segment header).many _ phbuf h
        · rcases Outcome.bind_eq_panic.mp h with h | ⟨shbuf, hshbuf, h⟩
          · exact readTable_ne_panic h
          · rcases Outcome.bind_eq_panic.mp h with h | ⟨⟨shs, rest'⟩, hsections, h⟩
            · exact (returns_section header).many _ shbuf h
            · have ht : Tables file header shs :=
                ⟨⟨_, hheader⟩, ⟨_, _, hphbuf, hsegments⟩, ⟨_, _, hshbuf, hsections⟩⟩
              exact (fromReader_tables ht).mp hpanic (hall header shs ht)

/-- A wide little-endian object whose only section is its own table of names: the
table is empty, and the name of the section starts behind it. -/
def shortNames : List UInt8 :=
  elfMagic ++ [2, 1, 1, 0] ++ List.replicate 8 0 ++ [3, 0, 62, 0, 1, 0, 0, 0] ++
    List.replicate 8 0 ++ (64 :: List.replicate 7 0) ++ (64 :: List.replicate 7 0) ++
    List.replicate 4 0 ++ [64, 0, 56, 0, 0, 0, 64, 0, 1, 0, 0, 0] ++ (1 :: List.replicate 63 0)

theorem fromReader_shortNames : ¬ fromReader shortNames ≠ .panic := by
  decide +kernel

end Elf

/-! ## The entries of a cache -/

namespace LdsoCache

theorem returns_entry (host : ByteOrder) : Returns (FileEntryNew.read host) := by
  have hword : Returns (readU32 IoErrorKind.unexpectedEof host) := .u32 _ host
  refine hword.bind fun _ => hword.bind fun _ => hword.bind fun _ => hword.bind fun _ => ?_
  exact (Returns.u64 _ host).bind fun _ => .pure _

theorem returns_cacheFile (host : ByteOrder) : Returns (CacheFileNew.read host) := by
  have hword : Returns (readU32 IoErrorKind.unexpectedEof host) := .u32 _ host
  refine (Returns.exact _ _).bind fun _ => (Returns.exact _ _).bind fun _ => ?_
  exact hword.bind fun _ => hword.bind fun _ => (hword.many 5).bind fun _ => .pure _

/-- A file that passes the checks of `read_ld_so_cache`: where its header is,
whether its numbers are swapped, and its entries as the host reads them. -/
structure Accepted (host : ByteOrder) (buf : List UInt8) (offset : Nat) (byteSwap : Bool)
    (nlibs : UInt32) (entries : List FileEntryNew) : Prop where
  found : findSubsequence cacheMagicNew buf = some offset
  header : ∃ header rest, (CacheFileNew.read host).run (buf.drop offset) = .ok (header, rest) ∧
    header.magic = cacheMagicNew ∧ header.version = cacheVersion ∧
    byteSwapOf header (offset + CacheFileNew.size) buf.length = .ok (byteSwap, nlibs)
  read : ∃ rest, (readMany (FileEntryNew.read host) nlibs.toNat).run
    (buf.drop (offset + CacheFileNew.size)) = .ok (entries, rest)

/-- The place, counted from the header, is one of the string table or its end. -/
def InStrings (buf : List UInt8) (offset : Nat) (nlibs : UInt32) (pos : UInt32) : Prop :=
  let table := CacheFileNew.size + FileEntryNew.size * nlibs.toNat
  table ≤ pos.toNat ∧ pos.toNat - table ≤ (buf.drop (offset + table)).length

/-- Key and value of an entry are places in the string table. -/
def EntryInStrings (buf : List UInt8) (offset : Nat) (byteSwap : Bool) (nlibs : UInt32)
    (entry : FileEntryNew) : Prop :=
  let pos (x : UInt32) : UInt32 := if byteSwap then swapBytes x else x
  InStrings buf offset nlibs (pos entry.key) ∧ InStrings buf offset nlibs (pos entry.value)

theorem stringAt_eq_panic {table : List UInt8} {offset : Nat} {pos : UInt32} :
    stringAt table offset pos = .panic ↔
      ¬ (offset ≤ pos.toNat ∧ pos.toNat - offset ≤ table.length) := by
  rw [stringAt]
  split
  · rename_i h
    exact iff_of_false (fun h => by cases h) (Classical.not_not.mpr h)
  · rename_i h
    exact iff_of_true rfl h

theorem stringAt_ne_err {table : List UInt8} {offset : Nat} {pos : UInt32} {e : IoErrorKind} :
    stringAt table offset pos ≠ .err e := by
  rw [stringAt]
  split <;> exact fun h => by cases h

/-- The first entry that leads out of the table ends the loop. -/
theorem pushEntries_eq_panic {byteSwap : Bool} {table : List UInt8} {offset : Nat}
    {entries : List FileEntryNew} {cache : LdsoCache} :
    pushEntries byteSwap table offset entries cache = .panic ↔
      ∃ e ∈ entries,
        stringAt table offset (if byteSwap then swapBytes e.key else e.key) = .panic ∨
        stringAt table offset (if byteSwap then swapBytes e.value else e.value) = .panic := by
  induction entries generalizing cache with
  | nil => exact iff_of_false (fun h => by cases h) (fun ⟨_, h, _⟩ => by cases h)
  | cons e entries ih =>
      rw [pushEntries, List.exists_mem_cons_iff]
      cases hkey : stringAt table offset (if byteSwap then swapBytes e.key else e.key) with
      | panic => exact iff_of_true rfl (.inl (.inl rfl))
      | err _ => exact absurd hkey stringAt_ne_err
      | ok key =>
          rw [Outcome.ok_bind]
          cases hval : stringAt table offset (if byteSwap then swapBytes e.value else e.value) with
          | panic => exact iff_of_true rfl (.inl (.inr rfl))
          | err _ => exact absurd hval stringAt_ne_err
          | ok val =>
              rw [Outcome.ok_bind, ih]
              exact (or_iff_right fun h => h.elim (fun h => by cases h) (fun h => by cases h)).symm

/-- A file that passes the checks panics at its entries or not at all. -/
theorem fromBytes_accepted {host : ByteOrder} {buf : List UInt8} {offset : Nat} {byteSwap : Bool}
    {nlibs : UInt32} {entries : List FileEntryNew}
    (h : Accepted host buf offset byteSwap nlibs entries) :
    fromBytes host buf = .panic ↔
      ¬ ∀ e ∈ entries, EntryInStrings buf offset byteSwap nlibs e := by
  obtain ⟨header, _, hheader, hmagic, hversion, hsize⟩ := h.header
  obtain ⟨_, hentries⟩ := h.read
  have htable : offset + CacheFileNew.size + FileEntryNew.size * nlibs.toNat =
      offset + (CacheFileNew.size + FileEntryNew.size * nlibs.toNat) := Nat.add_assoc ..
  rw [fromBytes, h.found, Outcome.okOr_some, Outcome.ok_bind, hheader, Outcome.ok_bind]
  simp only [hmagic, hversion, ne_eq, not_true_eq_false, if_false, hsize, Outcome.ok_bind,
    hentries]
  rw [pushEntries_eq_panic, htable, Nat.add_sub_cancel_left]
  simp only [stringAt_eq_panic, EntryInStrings, InStrings, Classical.not_forall,
    Classical.not_and_iff_not_or_not, exists_prop]

theorem byteSwapOf_ne_panic {header : CacheFileNew} {entriesPos size : Nat} :
    byteSwapOf header entriesPos size ≠ .panic := by
  rw [byteSwapOf]
  split
  · dsimp only
    split <;> exact fun h => by cases h
  · exact fun h => by cases h

/-- `read_ld_so_cache` comes back on a file if and only if, when the file passes the
checks, its entries name places in its string table. -/
theorem readLdSoCache_returns_iff (host : ByteOrder)
    (read : OsString → Outcome IoErrorKind (List UInt8)) (sysroot : OsString)
    (buf : List UInt8) (hread : read (push sysroot (ascii "etc/ld.so.cache")) = .ok buf) :
    readLdSoCache host read sysroot ≠ .panic ↔
      ∀ offset byteSwap nlibs entries, Accepted host buf offset byteSwap nlibs entries →
        ∀ e ∈ entries, EntryInStrings buf offset byteSwap nlibs e := by
  rw [readLdSoCache, hread, Outcome.ok_bind]
  constructor
  · intro hret offset byteSwap nlibs entries h
    by_contra hnot
    exact hret ((fromBytes_accepted h).mpr hnot)
  · intro hall hpanic
    have hstart := hpanic
    rw [fromBytes] at hstart
    rcases Outcome.bind_eq_panic.mp hstart with h | ⟨offset, hfound, h⟩
    · cases hf : findSubsequence cacheMagicNew buf with
      | none => simp [hf] at h
      | some offset => simp [hf] at h
    · have hfound : findSubsequence cacheMagicNew buf = some offset := by
        cases hf : findSubsequence cacheMagicNew buf with
        | none => simp [hf] at hfound
        | some o => simpa [hf] using hfound
      rcases Outcome.bind_eq_panic.mp h with h | ⟨⟨header, rest⟩, hheader, h⟩
      · exact returns_cacheFile host _ h
      · dsimp only at h
        split at h
        · cases h
        · rename_i hmagic
          split at h
          · cases h
          · rename_i hversion
            rcases Outcome.bind_eq_panic.mp h with h | ⟨⟨byteSwap, nlibs⟩, hsize, h⟩
            · exact byteSwapOf_ne_panic h
            · rcases Outcome.bind_eq_panic.mp h with h | ⟨⟨entries, rest'⟩, hentries, h⟩
              · exact (returns_entry host).many _ _ h
              · have hacc : Accepted host buf offset byteSwap nlibs entries :=
                  ⟨hfound, ⟨header, rest, hheader, Classical.not_not.mp hmagic,
                    Classical.not_not.mp hversion, hsize⟩, ⟨rest', hentries⟩⟩
                exact (fromBytes_accepted hacc).mp hpanic (hall _ _ _ _ hacc)

/-- One entry, with its strings at the start of the header. -/
def shortCache : List UInt8 :=
  cacheMagicNew ++ cacheVersion ++ [1, 0, 0, 0] ++ List.replicate 24 0 ++ List.replicate 24 0

theorem readLdSoCache_shortCache :
    ¬ readLdSoCache .little (fun _ => .ok shortCache) (ascii "/") ≠ .panic := by
  decide +kernel

theorem readLdSoCache_sampleImage_returns :
    readLdSoCache .little (fun _ => .ok sampleImage.file) (ascii "/") ≠ .panic ∧
      ¬ ∃ offset byteSwap nlibs entries,
        Accepted .little sampleImage.file offset byteSwap nlibs entries ∧
          ∃ e ∈ entries, ¬ EntryInStrings sampleImage.file offset byteSwap nlibs e := by
  have hret : readLdSoCache .little (fun _ => .ok sampleImage.file) (ascii "/") ≠ .panic := by
    decide +kernel
  refine ⟨hret, fun ⟨offset, byteSwap, nlibs, entries, hacc, e, he, hnot⟩ => hnot ?_⟩
  exact (readLdSoCache_returns_iff .little (fun _ => .ok sampleImage.file) (ascii "/")
    sampleImage.file rfl).mp hret offset byteSwap nlibs entries hacc e he

end LdsoCache
end Elfkit
end DracutInstall

/-
Tables of records and the entry size the header declares.

`Elf::from_reader` reads each table as one buffer of entries and takes the records
off its front one behind the other: it goes on by the size of a record, and the
entry size only says how much is read.  A record tells the bytes it was read from
(`encode_of_run`), but for the flag bits of a segment that are dropped, and so the
file has to say the same at both places.
-/
import DracutInstall.Elfkit.Decode

namespace DracutInstall
namespace Elfkit

open ByteCodec Rust

/-! ## The bytes a record was read from -/

theorem run_u32As64_eq_ok {o : ByteOrder} {bs rest : List UInt8} {x : UInt64}
    (h : (readU32As64 o).run bs = .ok (x, rest)) :
    bs = toBytes o 4 x.toNat ++ rest ∧ x.toNat < 2 ^ 32 := by
  obtain ⟨v, mid, hv, hlast⟩ := run_bind_eq_ok.mp h
  obtain ⟨rfl, rfl⟩ := run_pure_eq_ok hlast
  rw [UInt32.toNat_toUInt64]
  exact ⟨run_u32_eq_ok hv, v.toNat_lt⟩

theorem run_uclass_eq_ok {c : Class} {o : ByteOrder} {bs rest : List UInt8} {x : UInt64}
    (h : (readUclass c o).run bs = .ok (x, rest)) : bs = encodeUclass c o x ++ rest ∧ Fits c x := by
  cases c with
  | class32 =>
      obtain ⟨hbs, hlt⟩ := run_u32As64_eq_ok h
      exact ⟨hbs, fun _ => hlt⟩
  | class64 => exact ⟨run_u64_eq_ok h, fun hc => by cases hc⟩

/-- A section header is the bytes it was read from. -/
theorem SectionHeader.encode_of_run {eh : Header} {bs rest : List UInt8} {sh : SectionHeader}
    (h : (SectionHeader.fromReader eh).run bs = .ok (sh, rest)) :
    bs = sh.encode eh.identClass eh.order ++ rest ∧ sh.Fits eh.identClass := by
  obtain ⟨name, bs₁, hname, h₁⟩ := run_bind_eq_ok.mp h
  obtain ⟨shtype, bs₂, htype, h₂⟩ := run_bind_eq_ok.mp h₁
  obtain ⟨reb, bs₃, hreb, h₃⟩ := run_bind_eq_ok.mp h₂
  obtain ⟨flags, bs₄, hflags, h₄⟩ := run_bind_eq_ok.mp h₃
  obtain ⟨addr, bs₅, haddr, h₅⟩ := run_bind_eq_ok.mp h₄
  obtain ⟨offset, bs₆, hoffset, h₆⟩ := run_bind_eq_ok.mp h₅
  obtain ⟨size, bs₇, hsize, h₇⟩ := run_bind_eq_ok.mp h₆
  obtain ⟨link, bs₈, hlink, h₈⟩ := run_bind_eq_ok.mp h₇
  obtain ⟨info, bs₉, hinfo, h₉⟩ := run_bind_eq_ok.mp h₈
  obtain ⟨addralign, bs₁₀, halign, h₁₀⟩ := run_bind_eq_ok.mp h₉
  obtain ⟨entsize, bs₁₁, hentsize, hlast⟩ := run_bind_eq_ok.mp h₁₀
  obtain ⟨rfl, rfl⟩ := run_pure_eq_ok hlast
  obtain ⟨hbits, rfl⟩ := run_orFail_eq_ok hflags
  obtain ⟨hreb, hrebFits⟩ := run_uclass_eq_ok hreb
  obtain ⟨haddr, haddrFits⟩ := run_uclass_eq_ok haddr
  obtain ⟨hoffset, hoffsetFits⟩ := run_uclass_eq_ok hoffset
  obtain ⟨hsize, hsizeFits⟩ := run_uclass_eq_ok hsize
  obtain ⟨halign, halignFits⟩ := run_uclass_eq_ok halign
  obtain ⟨hentsize, hentsizeFits⟩ := run_uclass_eq_ok hentsize
  have hword : UInt64.ofBitVec flags.bits = reb := by
    rw [Bitflags.fromBits] at hbits
    split at hbits
    · cases hbits
      rfl
    · cases hbits
  refine ⟨?_, ?_⟩
  · rw [run_u32_eq_ok hname, run_u32_eq_ok htype, hreb, haddr, hoffset, hsize, run_u32_eq_ok hlink,
      run_u32_eq_ok hinfo, halign, hentsize]
    simp only [SectionHeader.encode, hword, List.append_assoc]
  · rw [← hword] at hrebFits
    exact ⟨hrebFits, haddrFits, hoffsetFits, hsizeFits, halignFits, hentsizeFits⟩

theorem known_eq {codes : List Nat} {n : Nat} {k : Known codes}
    (h : Known.ofNat? codes n = some k) : k.val = n := by
  rw [Known.ofNat?] at h
  split at h
  · cases h
    rfl
  · cases h

/-- A program header is the bytes it was read from, but for unknown flags. -/
theorem SegmentHeader.encode_of_run {eh : Header} {bs rest : List UInt8} {s : SegmentHeader}
    (h : (SegmentHeader.fromReader eh).run bs = .ok (s, rest)) :
    s.Fits eh.identClass ∧ ∃ fl, fl.toNat < 2 ^ 32 ∧
      Bitflags.fromBitsTruncate segmentFlagBits fl.toBitVec = s.flags ∧
      bs = s.encodeRaw eh.identClass eh.order fl ++ rest := by
  obtain ⟨reb, bs₁, hreb, h₁⟩ := run_bind_eq_ok.mp h
  obtain ⟨phtype, bs₂, htype, h₂⟩ := run_bind_eq_ok.mp h₁
  obtain ⟨hknown, rfl⟩ := run_orFail_eq_ok htype
  have hreb := run_u32_eq_ok hreb
  have hword : UInt32.ofNat phtype.val = reb := by
    rw [known_eq hknown, UInt32.ofNat_toNat]
  cases hc : eh.identClass with
  | class64 =>
      rw [hc] at h₂
      obtain ⟨fl, bs₃, hfl, h₃⟩ := run_bind_eq_ok.mp h₂
      obtain ⟨offset, bs₄, hoffset, h₄⟩ := run_bind_eq_ok.mp h₃
      obtain ⟨vaddr, bs₅, hvaddr, h₅⟩ := run_bind_eq_ok.mp h₄
      obtain ⟨paddr, bs₆, hpaddr, h₆⟩ := run_bind_eq_ok.mp h₅
      obtain ⟨filesz, bs₇, hfilesz, h₇⟩ := run_bind_eq_ok.mp h₆
      obtain ⟨memsz, bs₈, hmemsz, h₈⟩ := run_bind_eq_ok.mp h₇
      obtain ⟨align, bs₉, halign, hlast⟩ := run_bind_eq_ok.mp h₈
      obtain ⟨rfl, rfl⟩ := run_pure_eq_ok hlast
      obtain ⟨hfl, hlt⟩ := run_u32As64_eq_ok hfl
      refine ⟨?_, fl, hlt, rfl, ?_⟩
      · exact ⟨(fun h => by cases h), (fun h => by cases h), (fun h => by cases h),
          (fun h => by cases h), (fun h => by cases h), (fun h => by cases h)⟩
      · rw [hreb, hfl, run_u64_eq_ok hoffset, run_u64_eq_ok hvaddr, run_u64_eq_ok hpaddr,
          run_u64_eq_ok hfilesz, run_u64_eq_ok hmemsz, run_u64_eq_ok halign]
        simp only [encodeRaw, beforeFlags, behindFlags, hword, List.append_assoc]
  | class32 =>
      rw [hc] at h₂
      obtain ⟨offset, bs₃, hoffset, h₃⟩ := run_bind_eq_ok.mp h₂
      obtain ⟨vaddr, bs₄, hvaddr, h₄⟩ := run_bind_eq_ok.mp h₃
      obtain ⟨paddr, bs₅, hpaddr, h₅⟩ := run_bind_eq_ok.mp h₄
      obtain ⟨filesz, bs₆, hfilesz, h₆⟩ := run_bind_eq_ok.mp h₅
      obtain ⟨memsz, bs₇, hmemsz, h₇⟩ := run_bind_eq_ok.mp h₆
      obtain ⟨fl, bs₈, hfl, h₈⟩ := run_bind_eq_ok.mp h₇
      obtain ⟨align, bs₉, halign, hlast⟩ := run_bind_eq_ok.mp h₈
      obtain ⟨rfl, rfl⟩ := run_pure_eq_ok hlast
      obtain ⟨hoffset, hoffsetFits⟩ := run_u32As64_eq_ok hoffset
      obtain ⟨hvaddr, hvaddrFits⟩ := run_u32As64_eq_ok hvaddr
      obtain ⟨hpaddr, hpaddrFits⟩ := run_u32As64_eq_ok hpaddr
      obtain ⟨hfilesz, hfileszFits⟩ := run_u32As64_eq_ok hfilesz
      obtain ⟨hmemsz, hmemszFits⟩ := run_u32As64_eq_ok hmemsz
      obtain ⟨hfl, hlt⟩ := run_u32As64_eq_ok hfl
      obtain ⟨halign, halignFits⟩ := run_u32As64_eq_ok halign
      refine ⟨?_, fl, hlt, rfl, ?_⟩
      · exact ⟨fun _ => hoffsetFits, fun _ => hvaddrFits, fun _ => hpaddrFits,
          fun _ => hfileszFits, fun _ => hmemszFits, fun _ => halignFits⟩
      · rw [hreb, hoffset, hvaddr, hpaddr, hfilesz, hmemsz, hfl, halign]
        simp only [encodeRaw, beforeFlags, behindFlags, hword, List.append_assoc]

/-! ## Two places that say the same -/

/-- Where the flag word of a program header stands. -/
def SegmentHeader.flagsAt : Class → Nat
  | .class32 => 24
  | .class64 => 4

/-- The flags of a flag word. -/
def knownFlags (o : ByteOrder) (word : List UInt8) : SegmentFlags :=
  Bitflags.fromBitsTruncate segmentFlagBits (UInt64.ofNat (ofBytes o word)).toBitVec

/-- Two program headers that differ in unknown flag bits only. -/
def SameSegment (c : Class) (o : ByteOrder) (a b : List UInt8) : Prop :=
  a.take (SegmentHeader.flagsAt c) = b.take (SegmentHeader.flagsAt c) ∧
  a.drop (SegmentHeader.flagsAt c + 4) = b.drop (SegmentHeader.flagsAt c + 4) ∧
  knownFlags o ((a.drop (SegmentHeader.flagsAt c)).take 4) =
    knownFlags o ((b.drop (SegmentHeader.flagsAt c)).take 4)

namespace SegmentHeader

variable (c : Class) (o : ByteOrder) (s : SegmentHeader)

theorem beforeFlags_length : (s.beforeFlags c o).length = flagsAt c := by
  cases c <;> simp [beforeFlags, flagsAt]

theorem encodeRaw_length (fl : UInt64) : (s.encodeRaw c o fl).length = recordSize c := by
  cases c <;> simp [encodeRaw, beforeFlags, behindFlags, recordSize]

theorem encodeRaw_take (fl : UInt64) :
    (s.encodeRaw c o fl).take (flagsAt c) = s.beforeFlags c o :=
  List.take_left' (s.beforeFlags_length c o)

theorem encodeRaw_drop (fl : UInt64) :
    (s.encodeRaw c o fl).drop (flagsAt c) = toBytes o 4 fl.toNat ++ s.behindFlags c o :=
  List.drop_left' (s.beforeFlags_length c o)

theorem encodeRaw_behind (fl : UInt64) :
    (s.encodeRaw c o fl).drop (flagsAt c + 4) = s.behindFlags c o := by
  rw [← List.drop_drop, encodeRaw_drop]
  exact List.drop_left' (toBytes_length o 4 fl.toNat)

theorem encodeRaw_flags {fl : UInt64} (hlt : fl.toNat < 2 ^ 32) :
    knownFlags o (((s.encodeRaw c o fl).drop (flagsAt c)).take 4) =
      Bitflags.fromBitsTruncate segmentFlagBits fl.toBitVec := by
  rw [encodeRaw_drop, List.take_left' (toBytes_length o 4 fl.toNat), knownFlags,
    ofBytes_toBytes o (w := 4) hlt, UInt64.ofNat_toNat]

variable {c o s}

/-- The flag word can be any with the known flags. -/
theorem exists_encodeRaw {b : List UInt8} (hbefore : b.take (flagsAt c) = s.beforeFlags c o)
    (hbehind : b.drop (flagsAt c + 4) = s.behindFlags c o)
    (hknown : knownFlags o ((b.drop (flagsAt c)).take 4) = s.flags)
    (hlen : b.length = recordSize c) :
    ∃ fl, fl.toNat < 2 ^ 32 ∧ Bitflags.fromBitsTruncate segmentFlagBits fl.toBitVec = s.flags ∧
      b = s.encodeRaw c o fl := by
  have hword : ((b.drop (flagsAt c)).take 4).length = 4 := by
    refine List.length_take_of_le ?_
    rw [List.length_drop, hlen]
    cases c <;> decide
  have hlt := ofBytes_lt o ((b.drop (flagsAt c)).take 4)
  have hback := toBytes_ofBytes o ((b.drop (flagsAt c)).take 4)
  rw [hword] at hlt hback
  have hnat : (UInt64.ofNat (ofBytes o ((b.drop (flagsAt c)).take 4))).toNat =
      ofBytes o ((b.drop (flagsAt c)).take 4) := by
    have hpow : (256 : Nat) ^ 4 ≤ 2 ^ 64 := by decide
    rw [UInt64.toNat_ofNat', Nat.mod_eq_of_lt (Nat.lt_of_lt_of_le hlt hpow)]
  refine ⟨UInt64.ofNat (ofBytes o ((b.drop (flagsAt c)).take 4)), ?_, hknown, ?_⟩
  · rw [hnat]
    exact hlt
  · rw [encodeRaw, hnat, hback, ← hbefore, ← hbehind, ← List.drop_drop, List.take_append_drop,
      List.take_append_drop]

/-- A record is read at another place if and only if the same is there. -/
theorem run_iff {eh : Header} {bs bs' rest : List UInt8}
    (h : (SegmentHeader.fromReader eh).run bs = .ok (s, rest))
    (hlen : recordSize eh.identClass ≤ bs'.length) :
    (∃ rest', (SegmentHeader.fromReader eh).run bs' = .ok (s, rest')) ↔
      SameSegment eh.identClass eh.order (bs'.take (recordSize eh.identClass))
        (bs.take (recordSize eh.identClass)) := by
  obtain ⟨hfits, fl, hlt, hflags, rfl⟩ := encode_of_run h
  rw [List.take_left' (encodeRaw_length _ _ _ _)]
  constructor
  · rintro ⟨rest', h'⟩
    obtain ⟨_, fl', hlt', hflags', rfl⟩ := encode_of_run h'
    rw [List.take_left' (encodeRaw_length _ _ _ _)]
    refine ⟨?_, ?_, ?_⟩
    · rw [encodeRaw_take, encodeRaw_take]
    · rw [encodeRaw_behind, encodeRaw_behind]
    · rw [encodeRaw_flags _ _ _ hlt, encodeRaw_flags _ _ _ hlt', hflags, hflags']
  · rintro ⟨hbefore, hbehind, hknown⟩
    rw [encodeRaw_take] at hbefore
    rw [encodeRaw_behind] at hbehind
    rw [encodeRaw_flags _ _ _ hlt, hflags] at hknown
    have hblen : (bs'.take (recordSize eh.identClass)).length = recordSize eh.identClass :=
      List.length_take_of_le hlen
    generalize hb : bs'.take (recordSize eh.identClass) = b at hbefore hbehind hknown hblen
    obtain ⟨fl', hlt', hflags', hraw⟩ := exists_encodeRaw hbefore hbehind hknown hblen
    have hreads := reads_raw eh hfits hlt' hflags' (bs'.drop (recordSize eh.identClass))
    rw [← hraw, ← hb, List.take_append_drop] at hreads
    exact ⟨_, hreads⟩

end SegmentHeader

theorem SectionHeader.run_iff {eh : Header} {bs bs' rest : List UInt8} {sh : SectionHeader}
    (h : (SectionHeader.fromReader eh).run bs = .ok (sh, rest))
    (hlen : recordSize eh.identClass ≤ bs'.length) :
    (∃ rest', (SectionHeader.fromReader eh).run bs' = .ok (sh, rest')) ↔
      bs'.take (recordSize eh.identClass) = bs.take (recordSize eh.identClass) := by
  obtain ⟨rfl, hfits⟩ := encode_of_run h
  rw [List.take_left' (encode_length _ _ _)]
  constructor
  · rintro ⟨rest', h'⟩
    obtain ⟨rfl, _⟩ := encode_of_run h'
    exact List.take_left' (encode_length _ _ _)
  · intro htake
    have hreads := reads_fromReader eh hfits (bs'.drop (recordSize eh.identClass))
    rw [← htake, List.take_append_drop] at hreads
    exact ⟨_, hreads⟩

/-! ## Tables -/

theorem readAt_eq_ok {file buf : List UInt8} {off : UInt64} {n : Nat}
    (h : readAt file off n = .ok buf) :
    buf = (file.drop off.toNat).take n ∧ n ≤ (file.drop off.toNat).length := by
  obtain ⟨io, hio, h₁⟩ := Outcome.bind_eq_ok.mp h
  obtain ⟨u, _, h₂⟩ := Outcome.bind_eq_ok.mp h₁
  obtain ⟨⟨chunk, rest⟩, hchunk, hlast⟩ := Outcome.bind_eq_ok.mp h₂
  cases hlast
  rw [seekStart] at hio
  split at hio
  · cases hio
    obtain ⟨rfl, happend⟩ := run_exact_eq_ok hchunk
    rw [happend]
    exact ⟨List.take_left.symm, by rw [List.length_append]; exact Nat.le_add_right _ _⟩
  · cases hio

/-- The bytes at a place of the file. -/
def bytesAt (file : List UInt8) (off n : Nat) : List UInt8 := (file.drop off).take n

/-- A table of `n` entries of which the records are `z` bytes long: the records are the
ones at the declared entry size if and only if they say the same. -/
theorem table_strided_iff {α : Type} {r : Reader Error α} {z n stride : Nat} {file buf rest : List UInt8}
    {off : UInt64} {as : List α} {same : List UInt8 → List UInt8 → Prop}
    (hsize : ∀ bs a rest, r.run bs = .ok (a, rest) → rest = bs.drop z)
    (hsame : ∀ bs bs' a rest, r.run bs = .ok (a, rest) → z ≤ bs'.length →
      ((∃ rest', r.run bs' = .ok (a, rest')) ↔ same (bs'.take z) (bs.take z)))
    (hz : z ≤ stride) (hbuf : readAt file off (n * stride) = .ok buf)
    (hmany : (readMany r n).run buf = .ok (as, rest)) :
    as.length = n ∧
    ((∀ k (hk : k < as.length), ∃ after,
        r.run (file.drop (off.toNat + k * stride)) = .ok (as[k], after)) ↔
      ∀ k < n, same (bytesAt file (off.toNat + k * stride) z) (bytesAt file (off.toNat + k * z) z)) := by
  obtain ⟨rfl, hlen⟩ := readAt_eq_ok hbuf
  obtain ⟨hn, hget⟩ := run_many_eq_ok hsize hmany
  refine ⟨hn, ?_⟩
  have hone (k : Nat) (hk : k < as.length) :
      (∃ after, r.run (file.drop (off.toNat + k * stride)) = .ok (as[k], after)) ↔
        same (bytesAt file (off.toNat + k * stride) z) (bytesAt file (off.toNat + k * z) z) := by
    have hroom : k * stride + stride ≤ n * stride := by
      rw [← Nat.succ_mul]
      exact Nat.mul_le_mul_right stride (hn ▸ hk)
    have hpacked : k * z ≤ k * stride := Nat.mul_le_mul_left k hz
    obtain ⟨after, hafter⟩ := hget k hk
    have hlen' : z ≤ (file.drop (off.toNat + k * stride)).length := by
      rw [List.length_drop] at hlen ⊢
      omega
    have hiff := hsame _ _ _ _ hafter hlen'
    rw [List.drop_take, List.drop_drop, List.take_take, Nat.min_eq_left (by omega)] at hiff
    exact hiff
  constructor
  · exact fun h k hk => (hone k (hn.symm ▸ hk)).mp (h k (hn.symm ▸ hk))
  · exact fun h k hk => (hone k hk).mpr (h k (hn ▸ hk))

theorem SegmentHeader.run_drop {eh : Header} {bs rest : List UInt8} {s : SegmentHeader}
    (h : (SegmentHeader.fromReader eh).run bs = .ok (s, rest)) :
    rest = bs.drop (recordSize eh.identClass) := by
  obtain ⟨_, fl, _, _, rfl⟩ := encode_of_run h
  exact (List.drop_left' (encodeRaw_length _ _ _ _)).symm

theorem SectionHeader.run_drop {eh : Header} {bs rest : List UInt8} {sh : SectionHeader}
    (h : (SectionHeader.fromReader eh).run bs = .ok (sh, rest)) :
    rest = bs.drop (recordSize eh.identClass) := by
  obtain ⟨rfl, _⟩ := encode_of_run h
  exact (List.drop_left' (encode_length _ _ _)).symm

namespace Elf

theorem nameSections_header {shstrtab : List UInt8} {secs secs' : List Section}
    (h : nameSections shstrtab secs = .ok secs') :
    secs'.map Section.header = secs.map Section.header := by
  induction secs generalizing secs' with
  | nil =>
      cases h
      rfl
  | cons sec secs ih =>
      obtain ⟨named, hname, h₁⟩ := Outcome.bind_eq_ok.mp h
      obtain ⟨rest, hrest, hlast⟩ := Outcome.bind_eq_ok.mp h₁
      cases hlast
      have hsame : named.header = sec.header := by
        rw [sectionName] at hname
        split at hname
        · cases hname
          rfl
        · cases hname
      rw [List.map_cons, List.map_cons, hsame, ih hrest]

/-- Every segment and every section header is the record at its multiple of the
declared entry size. -/
def Strided (file : List UInt8) (elf : Elf) : Prop :=
  (∀ k (hk : k < elf.segments.length), ∃ after,
    (SegmentHeader.fromReader elf.header).run
      (file.drop (elf.header.phoff.toNat + k * elf.header.phentsize.toNat)) =
        .ok (elf.segments[k], after)) ∧
  ∀ k (hk : k < elf.sections.length), ∃ after,
    (SectionHeader.fromReader elf.header).run
      (file.drop (elf.header.shoff.toNat + k * elf.header.shentsize.toNat)) =
        .ok (elf.sections[k].header, after)

/-- The file says the same at the multiples of the entry size and at the multiples of
the size of a record. -/
def StridesAgree (file : List UInt8) (h : Header) : Prop :=
  (∀ k < h.phnum.toNat, SameSegment h.identClass h.order
    (bytesAt file (h.phoff.toNat + k * h.phentsize.toNat) (SegmentHeader.recordSize h.identClass))
    (bytesAt file (h.phoff.toNat + k * SegmentHeader.recordSize h.identClass)
      (SegmentHeader.recordSize h.identClass))) ∧
  ∀ k < h.shnum.toNat,
    bytesAt file (h.shoff.toNat + k * h.shentsize.toNat) (SectionHeader.recordSize h.identClass) =
    bytesAt file (h.shoff.toNat + k * SectionHeader.recordSize h.identClass)
      (SectionHeader.recordSize h.identClass)

theorem fromReader_strided_iff (file : List UInt8) (elf : Elf) (hread : fromReader file = .ok elf)
    (hphentsize : SegmentHeader.recordSize elf.header.identClass ≤ elf.header.phentsize.toNat)
    (hshentsize : SectionHeader.recordSize elf.header.identClass ≤ elf.header.shentsize.toNat) :
    Strided file elf ↔ StridesAgree file elf.header := by
  rw [fromReader] at hread
  obtain ⟨⟨header, _⟩, _, h₁⟩ := Outcome.bind_eq_ok.mp hread
  obtain ⟨buf, hbuf, h₂⟩ := Outcome.bind_eq_ok.mp h₁
  obtain ⟨⟨segments, _⟩, hsegments, h₃⟩ := Outcome.bind_eq_ok.mp h₂
  obtain ⟨buf', hbuf', h₄⟩ := Outcome.bind_eq_ok.mp h₃
  obtain ⟨⟨shs, _⟩, hshs, h₅⟩ := Outcome.bind_eq_ok.mp h₄
  obtain ⟨sec, _, h₆⟩ := Outcome.bind_eq_ok.mp h₅
  obtain ⟨shstrtab, _, h₇⟩ := Outcome.bind_eq_ok.mp h₆
  obtain ⟨sections, hsections, hlast⟩ := Outcome.bind_eq_ok.mp h₇
  cases hlast
  rw [Nat.mul_comm] at hbuf
  obtain ⟨_, hsegmentsIff⟩ := table_strided_iff (fun _ _ _ => SegmentHeader.run_drop)
    (fun _ _ _ _ => SegmentHeader.run_iff) hphentsize hbuf hsegments
  obtain ⟨_, hsectionsIff⟩ := table_strided_iff (fun _ _ _ => SectionHeader.run_drop)
    (fun _ _ _ _ => SectionHeader.run_iff) hshentsize hbuf' hshs
  have hheaders : sections.map Section.header = shs := by
    rw [nameSections_header hsections, List.map_map]
    exact List.map_id'' (fun _ => rfl) shs
  refine and_congr hsegmentsIff (Iff.trans ?_ hsectionsIff)
  have hlen : sections.length = shs.length := by rw [← hheaders, List.length_map]
  have hget (k : Nat) (hk : k < sections.length) : sections[k].header = shs[k] := by
    simp [← hheaders]
  constructor
  · intro h k hk
    obtain ⟨after, hafter⟩ := h k (hlen ▸ hk)
    rw [hget] at hafter
    exact ⟨after, hafter⟩
  · intro h k hk
    obtain ⟨after, hafter⟩ := h k (hlen ▸ hk)
    rw [hget]
    exact ⟨after, hafter⟩

/-- A wide little-endian object with two section headers of 64 bytes in entries of 80;
the second one is a string table. -/
def wideEntries : List UInt8 :=
  elfMagic ++ [2, 1, 1, 0] ++ List.replicate 8 0 ++ [3, 0, 62, 0, 1, 0, 0, 0] ++
    List.replicate 8 0 ++ (64 :: List.replicate 7 0) ++ (64 :: List.replicate 7 0) ++
    List.replicate 4 0 ++ [64, 0, 56, 0, 0, 0, 80, 0, 2, 0, 0, 0] ++ List.replicate 80 0 ++
    [0, 0, 0, 0, 3, 0, 0, 0] ++ List.replicate 72 0

/-- The same header over entries whose bytes come again after 16. -/
def periodicEntries : List UInt8 :=
  wideEntries.take 128 ++ (List.replicate 5 ([0, 0, 0, 0, 3, 0, 0, 0] ++ List.replicate 8 0)).flatten ++
    List.replicate 16 0

theorem fromReader_strided_sample :
    (∃ elf, fromReader (Sample.image .class64 .littleEndian).file = .ok elf ∧
      (Strided (Sample.image .class64 .littleEndian).file elf ↔
        StridesAgree (Sample.image .class64 .littleEndian).file elf.header)) ∧
    ∃ elf, fromReader periodicEntries = .ok elf ∧
      (SectionHeader.recordSize elf.header.identClass < elf.header.shentsize.toNat ∧
        elf.sections.length = 2) ∧ Strided periodicEntries elf := by
  have hread := fromReader_eq (Sample.image_valid .class64 .littleEndian)
  refine ⟨⟨_, hread, fromReader_strided_iff (Sample.image .class64 .littleEndian).file _ hread
    (by decide +kernel) (by decide +kernel)⟩, ?_⟩
  have hall : (fromReader periodicEntries).okAnd (fun elf => decide
      ((SectionHeader.recordSize elf.header.identClass < elf.header.shentsize.toNat ∧
        elf.sections.length = 2) ∧
      SegmentHeader.recordSize elf.header.identClass ≤ elf.header.phentsize.toNat ∧
      elf.header.phnum.toNat = 0 ∧ ∀ k < elf.header.shnum.toNat,
        bytesAt periodicEntries (elf.header.shoff.toNat + k * elf.header.shentsize.toNat)
            (SectionHeader.recordSize elf.header.identClass) =
          bytesAt periodicEntries
            (elf.header.shoff.toNat + k * SectionHeader.recordSize elf.header.identClass)
            (SectionHeader.recordSize elf.header.identClass))) = true := by
    decide +kernel
  obtain ⟨elf, hread, helf⟩ := Outcome.okAnd_eq_true hall
  obtain ⟨hwide, hph, hnone, hagree⟩ := of_decide_eq_true helf
  refine ⟨elf, hread, hwide, (fromReader_strided_iff periodicEntries elf hread hph
    (Nat.le_of_lt hwide.1)).mpr ⟨fun k hk => ?_, hagree⟩⟩
  rw [hnone] at hk
  exact absurd hk (Nat.not_lt_zero k)

/-- The second section header comes out of the padding of the first entry. -/
theorem fromReader_wideEntries :
    ∃ elf, fromReader wideEntries = .ok elf ∧
      SegmentHeader.recordSize elf.header.identClass ≤ elf.header.phentsize.toNat ∧
      SectionHeader.recordSize elf.header.identClass ≤ elf.header.shentsize.toNat ∧
      ¬ Strided wideEntries elf := by
  have hall : (fromReader wideEntries).okAnd (fun elf =>
      decide (SegmentHeader.recordSize elf.header.identClass ≤ elf.header.phentsize.toNat ∧
        SectionHeader.recordSize elf.header.identClass ≤ elf.header.shentsize.toNat) &&
      elf.sections[1]?.any fun sec => ((SectionHeader.fromReader elf.header).run
        (wideEntries.drop (elf.header.shoff.toNat + 1 * elf.header.shentsize.toNat))).okAnd
          fun found => decide (found.1 ≠ sec.header)) = true := by
    decide +kernel
  obtain ⟨elf, hread, helf⟩ := Outcome.okAnd_eq_true hall
  obtain ⟨hsizes, hdiffer⟩ := Bool.and_eq_true_iff.mp helf
  obtain ⟨hph, hsh⟩ := of_decide_eq_true hsizes
  refine ⟨elf, hread, hph, hsh, fun hstrided => ?_⟩
  obtain ⟨sec, hsec, hfound⟩ := (Option.any_eq_true _ _).mp hdiffer
  obtain ⟨found, hrun, hne⟩ := Outcome.okAnd_eq_true hfound
  obtain ⟨hlt, hget⟩ := List.getElem?_eq_some_iff.mp hsec
  obtain ⟨after, hafter⟩ := hstrided.2 1 hlt
  rw [hrun] at hafter
  obtain rfl := Outcome.ok.inj hafter
  exact of_decide_eq_true hne (congrArg Section.header hget)

end Elf

end Elfkit
end DracutInstall

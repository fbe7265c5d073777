/-
What `LdsoCache::read_ld_so_cache` accepts.

A file is taken exactly when it has the parts of a cache behind one another, counted as
its header counts them in one of the two byte orders; the map is then that of its
entries.
-/
import DracutInstall.Elfkit.Accepted
import DracutInstall.Elfkit.LdSoCache

namespace DracutInstall
namespace Elfkit

open ByteCodec Rust UnixPath

/-! ## The records -/

theorem FileEntryNew.accepts (host : ByteOrder) :
    Accepts (FileEntryNew.read host) fun chunk e => chunk = e.encode host where
  reads := by
    rintro _ e rfl
    refine (Reads.u32 _ host e.flags.toUInt32).bind ?_
    refine (Reads.u32 _ host e.key).bind ?_
    refine (Reads.u32 _ host e.value).bind ?_
    refine (Reads.u32 _ host e.osversion).bind ?_
    exact (Reads.u64 _ host e.hwcap).last rfl
  taken := by
    intro bs e rest hrun
    obtain ⟨flags, bs₁, hflags, hrun⟩ := run_bind_eq_ok.mp hrun
    obtain ⟨key, bs₂, hkey, hrun⟩ := run_bind_eq_ok.mp hrun
    obtain ⟨value, bs₃, hvalue, hrun⟩ := run_bind_eq_ok.mp hrun
    obtain ⟨osversion, bs₄, hosversion, hrun⟩ := run_bind_eq_ok.mp hrun
    obtain ⟨hwcap, bs₅, hhwcap, hrun⟩ := run_bind_eq_ok.mp hrun
    obtain ⟨rfl, rfl⟩ := run_pure_eq_ok hrun
    refine ⟨_, rfl, ?_⟩
    rw [run_u32_eq_ok hflags, run_u32_eq_ok hkey, run_u32_eq_ok hvalue, run_u32_eq_ok hosversion,
      run_u64_eq_ok hhwcap]
    simp [FileEntryNew.encode]

/-- The bytes are those of a cache header. -/
def CacheFileNew.Bytes (host : ByteOrder) (chunk : List UInt8) (h : CacheFileNew) : Prop :=
  h.magic.length = 17 ∧ h.version.length = 3 ∧ h.unused.length = 5 ∧ chunk = h.encode host

theorem CacheFileNew.accepts (host : ByteOrder) :
    Accepts (CacheFileNew.read host) (CacheFileNew.Bytes host) where
  reads := by
    rintro _ h ⟨hmagic, hversion, hunused, rfl⟩
    have hreadMagic := Reads.exact IoErrorKind.unexpectedEof h.magic
    have hreadVersion := Reads.exact IoErrorKind.unexpectedEof h.version
    have hreadUnused : Reads (readMany (readU32 IoErrorKind.unexpectedEof host) h.unused.length)
        (h.unused.flatMap fun x => toBytes host 4 x.toNat) h.unused :=
      Reads.many _ fun x _ => Reads.u32 IoErrorKind.unexpectedEof host x
    rw [hmagic] at hreadMagic
    rw [hversion] at hreadVersion
    rw [hunused] at hreadUnused
    refine hreadMagic.bind ?_
    refine hreadVersion.bind ?_
    refine (Reads.u32 _ host h.nlibs).bind ?_
    refine (Reads.u32 _ host h.lenStrings).bind ?_
    exact hreadUnused.last rfl
  taken := by
    intro bs h rest hrun
    obtain ⟨magic, bs₁, hmagic, hrun⟩ := run_bind_eq_ok.mp hrun
    obtain ⟨version, bs₂, hversion, hrun⟩ := run_bind_eq_ok.mp hrun
    obtain ⟨nlibs, bs₃, hnlibs, hrun⟩ := run_bind_eq_ok.mp hrun
    obtain ⟨lenStrings, bs₄, hlenStrings, hrun⟩ := run_bind_eq_ok.mp hrun
    obtain ⟨unused, bs₅, hunused, hrun⟩ := run_bind_eq_ok.mp hrun
    obtain ⟨rfl, rfl⟩ := run_pure_eq_ok hrun
    obtain ⟨hmagicLen, hbs⟩ := run_exact_eq_ok hmagic
    obtain ⟨hversionLen, hbs₁⟩ := run_exact_eq_ok hversion
    have hword : Accepts (readU32 IoErrorKind.unexpectedEof host)
        fun chunk (x : UInt32) => chunk = toBytes host 4 x.toNat :=
      ⟨fun _ x h => h ▸ Reads.u32 _ host x, fun _ x _ h => ⟨_, rfl, run_u32_eq_ok h⟩⟩
    obtain ⟨bytes, ⟨hunusedLen, henc⟩, hbs₄⟩ := (hword.many 5).taken _ _ _ hunused
    refine ⟨_, ⟨hmagicLen, hversionLen, hunusedLen, rfl⟩, ?_⟩
    rw [hbs, hbs₁, run_u32_eq_ok hnlibs, run_u32_eq_ok hlenStrings, hbs₄,
      encodings_map (fun _ _ h => h) henc]
    simp [CacheFileNew.encode]

/-! ## The first window -/

theorem findSubsequence_eq_some {needle bs : List UInt8} {k : Nat} :
    findSubsequence needle bs = some k ↔
      k < bs.length ∧ needle <+: bs.drop k ∧ ∀ j < k, ¬ needle <+: bs.drop j := by
  induction bs generalizing k with
  | nil => simp [findSubsequence]
  | cons b bs ih =>
      rw [findSubsequence]
      by_cases hhere : needle <+: b :: bs
      · rw [if_pos hhere]
        cases k with
        | zero => simp [hhere]
        | succ k =>
            apply iff_of_false (by simp)
            rintro ⟨_, _, hnot⟩
            exact hnot 0 (Nat.succ_pos k) hhere
      · rw [if_neg hhere]
        cases k with
        | zero => simp [hhere]
        | succ k =>
            rw [Option.map_eq_some_iff]
            constructor
            · rintro ⟨k', hk', heq⟩
              obtain rfl : k' = k := by omega
              obtain ⟨hlt, hfound, hnot⟩ := ih.mp hk'
              refine ⟨Nat.succ_lt_succ hlt, hfound, fun j hj => ?_⟩
              cases j with
              | zero => exact hhere
              | succ j => exact hnot j (Nat.lt_of_succ_lt_succ hj)
            · rintro ⟨hlt, hfound, hnot⟩
              refine ⟨k, ih.mpr ⟨Nat.lt_of_succ_lt_succ hlt, hfound, fun j hj => ?_⟩, rfl⟩
              exact hnot (j + 1) (Nat.succ_lt_succ hj)

/-! ## The parts of a file -/

/-- The parts of a cache, with the numbers as the host reads them. -/
structure CacheParts where
  before : List UInt8
  header : CacheFileNew
  entries : List FileEntryNew
  table : List UInt8
  byteSwap : Bool

namespace CacheParts

/-- A number as the cache means it. -/
def num (c : CacheParts) (x : UInt32) : UInt32 := if c.byteSwap then swapBytes x else x

def file (host : ByteOrder) (c : CacheParts) : List UInt8 :=
  c.before ++ (c.header.encode host ++ (c.entries.flatMap (FileEntryNew.encode host) ++ c.table))

/-- The distance of the string table from the header. -/
def tableOffset (c : CacheParts) : Nat :=
  CacheFileNew.size + FileEntryNew.size * c.entries.length

/-- The number is the place of a string, counted from the header. -/
def InTable (c : CacheParts) (pos : UInt32) : Prop :=
  c.tableOffset ≤ (c.num pos).toNat ∧ (c.num pos).toNat - c.tableOffset ≤ c.table.length

/-- The string at a place: up to a NUL or the end of the table. -/
def string (c : CacheParts) (pos : UInt32) : OsString :=
  untilNul (c.table.drop ((c.num pos).toNat - c.tableOffset))

def entry (c : CacheParts) (e : FileEntryNew) : CacheEntry :=
  { raw := e, key := c.string e.key, value := c.string e.value }

/-- The counts are those of the parts; where the numbers are swapped, they are not when
read as they stand. -/
structure Valid (host : ByteOrder) (c : CacheParts) : Prop where
  first : ∀ j < c.before.length, ¬ cacheMagicNew <+: (c.file host).drop j
  header : c.header.WellFormed
  nlibs : (c.num c.header.nlibs).toNat = c.entries.length
  lenStrings : (c.num c.header.lenStrings).toNat = c.table.length
  swapped : c.byteSwap = true → ¬ LdsoCache.sizeMatches (c.before.length + CacheFileNew.size)
    c.header.nlibs c.header.lenStrings (c.file host).length
  strings : ∀ e ∈ c.entries, c.InTable e.key ∧ c.InTable e.value

theorem entries_length (host : ByteOrder) (entries : List FileEntryNew) :
    (entries.flatMap (FileEntryNew.encode host)).length = FileEntryNew.size * entries.length := by
  rw [List.length_flatMap]
  simp [FileEntryNew.encode_length, Nat.mul_comm]

section File

variable {host : ByteOrder} {c : CacheParts}

theorem drop_before : (c.file host).drop c.before.length =
    c.header.encode host ++ (c.entries.flatMap (FileEntryNew.encode host) ++ c.table) :=
  List.drop_left

theorem drop_header (hw : c.header.WellFormed) :
    (c.file host).drop (c.before.length + CacheFileNew.size) =
      c.entries.flatMap (FileEntryNew.encode host) ++ c.table := by
  rw [← List.drop_drop, drop_before, ← CacheFileNew.encode_length host hw, List.drop_left]

theorem drop_entries (hw : c.header.WellFormed) :
    (c.file host).drop
      (c.before.length + CacheFileNew.size + FileEntryNew.size * c.entries.length) = c.table := by
  rw [← List.drop_drop, drop_header hw, ← entries_length host, List.drop_left]

theorem file_length (hw : c.header.WellFormed) :
    (c.file host).length = c.before.length + CacheFileNew.size +
      c.entries.length * FileEntryNew.size + c.table.length := by
  simp only [file, List.length_append, CacheFileNew.encode_length _ hw, entries_length]
  rw [Nat.mul_comm]
  omega

end File

theorem stringAt_iff {c : CacheParts} {pos : UInt32} {s : OsString} :
    LdsoCache.stringAt c.table c.tableOffset (c.num pos) = .ok s ↔ c.InTable pos ∧ s = c.string pos := by
  rw [LdsoCache.stringAt, InTable, string]
  split
  · rename_i hin
    simp [hin, eq_comm]
  · rename_i hin
    exact iff_of_false (fun h => by cases h) fun h => hin h.1

theorem pushEntries_iff (c : CacheParts) {entries : List FileEntryNew} {m m' : LdsoCache} :
    LdsoCache.pushEntries c.byteSwap c.table c.tableOffset entries m = .ok m' ↔
      (∀ e ∈ entries, c.InTable e.key ∧ c.InTable e.value) ∧
        m' = m.pushAll (entries.map c.entry) := by
  induction entries generalizing m with
  | nil => simp [LdsoCache.pushEntries, LdsoCache.pushAll, eq_comm]
  | cons e entries ih =>
      rw [LdsoCache.pushEntries, List.forall_mem_cons, Outcome.bind_eq_ok]
      constructor
      · rintro ⟨key, hkey, h⟩
        obtain ⟨value, hvalue, h⟩ := Outcome.bind_eq_ok.mp h
        obtain ⟨hkeyIn, rfl⟩ := stringAt_iff.mp hkey
        obtain ⟨hvalueIn, rfl⟩ := stringAt_iff.mp hvalue
        obtain ⟨hall, rfl⟩ := ih.mp h
        exact ⟨⟨⟨hkeyIn, hvalueIn⟩, hall⟩, rfl⟩
      · rintro ⟨⟨⟨hkeyIn, hvalueIn⟩, hall⟩, rfl⟩
        refine ⟨_, stringAt_iff.mpr ⟨hkeyIn, rfl⟩, ?_⟩
        rw [Outcome.bind_eq_ok]
        exact ⟨_, stringAt_iff.mpr ⟨hvalueIn, rfl⟩, ih.mpr ⟨hall, rfl⟩⟩

end CacheParts

namespace LdsoCache

/-- The counts fit as they are read, or only when they are swapped. -/
theorem byteSwapOf_iff {header : CacheFileNew} {entriesPos size : Nat} {byteSwap : Bool}
    {nlibs : UInt32} :
    byteSwapOf header entriesPos size = .ok (byteSwap, nlibs) ↔
      nlibs = (if byteSwap then swapBytes header.nlibs else header.nlibs) ∧
      sizeMatches entriesPos nlibs
        (if byteSwap then swapBytes header.lenStrings else header.lenStrings) size ∧
      (byteSwap = true → ¬ sizeMatches entriesPos header.nlibs header.lenStrings size) := by
  rw [byteSwapOf]
  by_cases hplain : sizeMatches entriesPos header.nlibs header.lenStrings size
  · rw [if_neg (not_not.mpr hplain)]
    cases byteSwap with
    | true => simp [hplain]
    | false =>
        simp only [Outcome.ok.injEq, Prod.mk.injEq, true_and, Bool.false_eq_true, if_false,
          false_implies, and_true]
        constructor
        · rintro rfl
          exact ⟨rfl, hplain⟩
        · exact fun h => h.1.symm
  · rw [if_pos hplain]
    by_cases hswapped :
        sizeMatches entriesPos (swapBytes header.nlibs) (swapBytes header.lenStrings) size
    · simp only [hswapped, not_true_eq_false, if_false, Outcome.ok.injEq, Prod.mk.injEq]
      cases byteSwap with
      | true =>
          simp only [true_and, if_true, true_implies]
          constructor
          · rintro rfl
            exact ⟨rfl, hswapped, hplain⟩
          · exact fun h => h.1.symm
      | false =>
          apply iff_of_false (by simp)
          rintro ⟨rfl, hsize, _⟩
          exact hplain hsize
    · simp only [hswapped, not_false_eq_true, if_true]
      apply iff_of_false (by simp)
      rintro ⟨rfl, hsize, _⟩
      cases byteSwap with
      | true => exact hswapped hsize
      | false => exact hplain hsize

/-- A file whose parts are those of a cache is taken. -/
theorem fromBytes_file {host : ByteOrder} {c : CacheParts} (hc : c.Valid host) :
    fromBytes host (c.file host) = .ok (pushAll ∅ (c.entries.map c.entry)) := by
  have hw := hc.header
  have hmagicLen : c.header.magic.length = 17 := by rw [hw.magic]; rfl
  have hversionLen : c.header.version.length = 3 := by rw [hw.version]; rfl
  have hfound : findSubsequence cacheMagicNew (c.file host) = some c.before.length := by
    refine findSubsequence_eq_some.mpr ⟨?_, ?_, hc.first⟩
    · rw [CacheParts.file_length hw, CacheFileNew.size]
      omega
    · rw [CacheParts.drop_before, CacheFileNew.encode, hw.magic, List.append_assoc]
      exact List.prefix_append _ _
  have hheader : (CacheFileNew.read host).run ((c.file host).drop c.before.length) =
      .ok (c.header, c.entries.flatMap (FileEntryNew.encode host) ++ c.table) :=
    (CacheFileNew.accepts host).run_iff.mpr
      ⟨_, ⟨hmagicLen, hversionLen, hw.unused, rfl⟩, CacheParts.drop_before⟩
  have hswap : byteSwapOf c.header (c.before.length + CacheFileNew.size) (c.file host).length =
      .ok (c.byteSwap, c.num c.header.nlibs) := by
    refine byteSwapOf_iff.mpr ⟨rfl, ?_, hc.swapped⟩
    have hstrings : (if c.byteSwap then swapBytes c.header.lenStrings else
        c.header.lenStrings).toNat = c.table.length := hc.lenStrings
    rw [sizeMatches, hc.nlibs, hstrings, CacheParts.file_length hw]
  have hentries : (readMany (FileEntryNew.read host) (c.num c.header.nlibs).toNat).run
      ((c.file host).drop (c.before.length + CacheFileNew.size)) = .ok (c.entries, c.table) := by
    rw [hc.nlibs, CacheParts.drop_header hw]
    exact Reads.many (FileEntryNew.encode host)
      (fun e _ => (FileEntryNew.accepts host).reads _ e rfl) c.table
  have htable : c.before.length + CacheFileNew.size +
      FileEntryNew.size * (c.num c.header.nlibs).toNat - c.before.length = c.tableOffset := by
    rw [hc.nlibs, CacheParts.tableOffset]
    omega
  rw [fromBytes, hfound, Outcome.okOr_some, Outcome.ok_bind, hheader, Outcome.ok_bind]
  simp only [hw.magic, hw.version, ne_eq, not_true_eq_false, if_false, hswap, Outcome.ok_bind,
    hentries, htable]
  rw [hc.nlibs, CacheParts.drop_entries hw]
  exact (CacheParts.pushEntries_iff c).mpr ⟨hc.strings, rfl⟩

/-- A file that is taken has the parts of a cache. -/
theorem exists_parts {host : ByteOrder} {buf : List UInt8} {cache : LdsoCache} {offset : Nat}
    {header : CacheFileNew} {rest table : List UInt8} {byteSwap : Bool} {nlibs : UInt32}
    {entries : List FileEntryNew}
    (hoffset : Outcome.okOr (findSubsequence cacheMagicNew buf) IoErrorKind.invalidData = .ok offset)
    (hheader : (CacheFileNew.read host).run (buf.drop offset) = .ok (header, rest))
    (hmagic : header.magic = cacheMagicNew) (hversion : header.version = cacheVersion)
    (hswap : byteSwapOf header (offset + CacheFileNew.size) buf.length = .ok (byteSwap, nlibs))
    (hentries : (readMany (FileEntryNew.read host) nlibs.toNat).run
      (buf.drop (offset + CacheFileNew.size)) = .ok (entries, table))
    (hpush : pushEntries byteSwap
      (buf.drop (offset + CacheFileNew.size + FileEntryNew.size * nlibs.toNat))
      (offset + CacheFileNew.size + FileEntryNew.size * nlibs.toNat - offset) entries ∅ =
        .ok cache) :
    ∃ c : CacheParts, c.Valid host ∧ buf = c.file host ∧
      cache = pushAll ∅ (c.entries.map c.entry) := by
  have hfound : findSubsequence cacheMagicNew buf = some offset := by
    cases hf : findSubsequence cacheMagicNew buf with
    | none => simp [hf] at hoffset
    | some o => simpa [hf] using hoffset
  obtain ⟨hlt, _, hfirst⟩ := findSubsequence_eq_some.mp hfound
  obtain ⟨_, ⟨_, _, hunused, rfl⟩, hdrop⟩ := (CacheFileNew.accepts host).run_iff.mp hheader
  obtain ⟨_, ⟨hlen, henc⟩, hrest⟩ := ((FileEntryNew.accepts host).many _).run_iff.mp hentries
  obtain rfl := encodings_map (fun _ _ h => h) henc
  have hw : header.WellFormed := ⟨hmagic, hversion, hunused⟩
  rw [← List.drop_drop, hdrop, ← CacheFileNew.encode_length host hw, List.drop_left] at hrest
  subst hrest
  have hparts : ∃ c : CacheParts, c.before.length = offset ∧ c.header = header ∧
      c.entries = entries ∧ c.table = table ∧ c.byteSwap = byteSwap ∧ c.file host = buf := by
    refine ⟨⟨buf.take offset, header, entries, table, byteSwap⟩,
      List.length_take_of_le (Nat.le_of_lt hlt), rfl, rfl, rfl, rfl, ?_⟩
    rw [CacheParts.file, ← hdrop, List.take_append_drop]
  obtain ⟨c, rfl, rfl, rfl, rfl, rfl, rfl⟩ := hparts
  obtain ⟨hnlibs, hsize, hplain⟩ := byteSwapOf_iff.mp hswap
  obtain rfl : nlibs = c.num c.header.nlibs := hnlibs
  have hstrings : c.before.length + CacheFileNew.size +
      (c.num c.header.nlibs).toNat * FileEntryNew.size + (c.num c.header.lenStrings).toNat =
        (c.file host).length := hsize
  rw [CacheParts.file_length hw, ← hlen] at hstrings
  have htable : c.before.length + CacheFileNew.size + FileEntryNew.size * c.entries.length -
      c.before.length = c.tableOffset := by
    rw [CacheParts.tableOffset]
    omega
  rw [← hlen, CacheParts.drop_entries hw, htable] at hpush
  obtain ⟨hall, hcache⟩ := (CacheParts.pushEntries_iff c).mp hpush
  exact ⟨c, ⟨hfirst, hw, hlen.symm, by omega, hplain, hall⟩, rfl, hcache⟩

theorem fromBytes_ok_iff {host : ByteOrder} {buf : List UInt8} {cache : LdsoCache} :
    fromBytes host buf = .ok cache ↔ ∃ c : CacheParts, c.Valid host ∧ buf = c.file host ∧
      cache = pushAll ∅ (c.entries.map c.entry) := by
  constructor
  · intro h
    rw [fromBytes] at h
    obtain ⟨offset, hoffset, h⟩ := Outcome.bind_eq_ok.mp h
    obtain ⟨⟨header, rest⟩, hheader, h⟩ := Outcome.bind_eq_ok.mp h
    dsimp only at h
    split at h
    · cases h
    · rename_i hmagic
      split at h
      · cases h
      · rename_i hversion
        obtain ⟨⟨byteSwap, nlibs⟩, hswap, h⟩ := Outcome.bind_eq_ok.mp h
        obtain ⟨⟨entries, table⟩, hentries, h⟩ := Outcome.bind_eq_ok.mp h
        exact exists_parts hoffset hheader (not_not.mp hmagic) (not_not.mp hversion) hswap hentries h
  · rintro ⟨c, hc, rfl, rfl⟩
    exact fromBytes_file hc

theorem values_pushAll (entries : List CacheEntry) (key : OsString) :
    values (pushAll ∅ entries) key = (entries.filter fun e => e.key = key).map CacheEntry.value := by
  rw [values, lookup_pushAll]
  by_cases hkey : entries.any (fun e => e.key = key) = true
  · rw [if_pos hkey]
    rfl
  · rw [if_neg hkey]
    have hfilter : entries.filter (fun e => decide (e.key = key)) = [] := by
      simpa [List.filter_eq_nil_iff] using hkey
    rw [hfilter]
    rfl

/-- `read_ld_so_cache` returns a map exactly when the file has the parts of a cache, and
then the map has for each key the values of its entries, in their order. -/
theorem readLdSoCache_ok_iff (host : ByteOrder)
    (read : OsString → Outcome IoErrorKind (List UInt8)) (sysroot : OsString) (buf : List UInt8)
    (hread : read (push sysroot (ascii "etc/ld.so.cache")) = .ok buf) (cache : LdsoCache) :
    readLdSoCache host read sysroot = .ok cache ↔ ∃ c : CacheParts, c.Valid host ∧
      buf = c.file host ∧ cache = pushAll ∅ (c.entries.map c.entry) ∧
      ∀ key, cache.values key =
        ((c.entries.map c.entry).filter fun e => e.key = key).map CacheEntry.value := by
  rw [readLdSoCache, hread, Outcome.ok_bind, fromBytes_ok_iff]
  constructor
  · rintro ⟨c, hc, hbuf, rfl⟩
    exact ⟨c, hc, hbuf, rfl, values_pushAll _⟩
  · rintro ⟨c, hc, hbuf, hcache, _⟩
    exact ⟨c, hc, hbuf, hcache⟩

theorem readLdSoCache_parts :
    ∃ cache, readLdSoCache .little (fun _ => .ok sampleImage.file) (ascii "/") = .ok cache ∧
      ∃ c : CacheParts, c.Valid .little ∧ sampleImage.file = c.file .little ∧
        cache = pushAll ∅ (c.entries.map c.entry) ∧
        ∀ key, cache.values key =
          ((c.entries.map c.entry).filter fun e => e.key = key).map CacheEntry.value := by
  have hrun : readLdSoCache .little (fun _ => .ok sampleImage.file) (ascii "/") =
      .ok (pushAll ∅ sampleImage.entries) := by
    rw [readLdSoCache, Outcome.ok_bind]
    exact fromBytes_eq sampleImage_valid (Or.inr (by decide +kernel))
  exact ⟨_, hrun, (readLdSoCache_ok_iff .little _ (ascii "/") sampleImage.file rfl _).mp hrun⟩

end LdsoCache

end Elfkit
end DracutInstall

/-
`LdsoCache::read_ld_so_cache`: the libraries the dynamic linker's cache lists.

The structures of the cache are read as the host lays them out in memory, so the
byte order of the host is a parameter.  A cache of the other byte order is told
by its size.
-/
import Mathlib.Data.List.AList
import DracutInstall.Lib.UnixPath
import DracutInstall.Elfkit.Content

namespace DracutInstall
namespace Elfkit

open ByteCodec Rust UnixPath

def cacheMagicNew : List UInt8 := ascii "glibc-ld.so.cache"

def cacheVersion : List UInt8 := ascii "1.1"

structure FileEntryNew where
  flags : Int32
  key : UInt32
  value : UInt32
  osversion : UInt32
  hwcap : UInt64
  deriving DecidableEq

/-- `size_of::<FileEntryNew>()`. -/
def FileEntryNew.size : Nat := 24

structure CacheFileNew where
  magic : List UInt8
  version : List UInt8
  nlibs : UInt32
  lenStrings : UInt32
  unused : List UInt32
  deriving DecidableEq

/-- `size_of::<CacheFileNew>()`. -/
def CacheFileNew.size : Nat := 48

/-- `read_struct::<FileEntryNew>`. -/
def FileEntryNew.read (host : ByteOrder) : Reader IoErrorKind FileEntryNew := do
  let flags ← readU32 .unexpectedEof host
  let key ← readU32 .unexpectedEof host
  let value ← readU32 .unexpectedEof host
  let osversion ← readU32 .unexpectedEof host
  let hwcap ← readU64 .unexpectedEof host
  pure { flags := flags.toInt32, key, value, osversion, hwcap }

/-- `read_struct::<CacheFileNew>`. -/
def CacheFileNew.read (host : ByteOrder) : Reader IoErrorKind CacheFileNew := do
  let magic ← readExact .unexpectedEof 17
  let version ← readExact .unexpectedEof 3
  let nlibs ← readU32 .unexpectedEof host
  let lenStrings ← readU32 .unexpectedEof host
  let unused ← readMany (readU32 .unexpectedEof host) 5
  pure { magic, version, nlibs, lenStrings, unused }

/-- The position of the first window equal to the needle. -/
def findSubsequence (needle : List UInt8) : List UInt8 → Option Nat
  | [] => none
  | b :: bs =>
      if needle <+: b :: bs then some 0
      else (findSubsequence needle bs).map (· + 1)

/-- `BTreeMap<OsString, Vec<OsString>>`. -/
abbrev LdsoCache := AList fun _ : OsString => List OsString

namespace LdsoCache

/-- `cache.entry(key).or_insert_with(Vec::new).push(val)`. -/
def pushValue (cache : LdsoCache) (key val : OsString) : LdsoCache :=
  cache.insert key ((cache.lookup key).getD [] ++ [val])

/-- The values the cache lists for a key. -/
def values (cache : LdsoCache) (key : OsString) : List OsString := (cache.lookup key).getD []

/-- The size of the file is the size the header tells. -/
def sizeMatches (entriesPos : Nat) (nlibs lenStrings : UInt32) (size : Nat) : Prop :=
  entriesPos + nlibs.toNat * FileEntryNew.size + lenStrings.toNat = size

instance (entriesPos : Nat) (nlibs lenStrings : UInt32) (size : Nat) :
    Decidable (sizeMatches entriesPos nlibs lenStrings size) :=
  inferInstanceAs (Decidable (_ = _))

/-- The string at an offset from the start of the header; `offset` is the
distance of the table from there.  An offset before the table or past its end
panics, the first in the subtraction and the second in the slice. -/
def stringAt (table : List UInt8) (offset : Nat) (pos : UInt32) : Outcome IoErrorKind OsString :=
  if offset ≤ pos.toNat ∧ pos.toNat - offset ≤ table.length then
    .ok (untilNul (table.drop (pos.toNat - offset)))
  else .panic

/-- The loop over `file_entries`. -/
def pushEntries (byteSwap : Bool) (table : List UInt8) (offset : Nat) :
    List FileEntryNew → LdsoCache → Outcome IoErrorKind LdsoCache
  | [], cache => .ok cache
  | entry :: entries, cache => do
      let key ← stringAt table offset (if byteSwap then swapBytes entry.key else entry.key)
      let val ← stringAt table offset (if byteSwap then swapBytes entry.value else entry.value)
      pushEntries byteSwap table offset entries (cache.pushValue key val)

/-- Whether the bytes of every number have to be swapped, with the number of
entries as it then is. -/
def byteSwapOf (header : CacheFileNew) (entriesPos size : Nat) :
    Outcome IoErrorKind (Bool × UInt32) :=
  if ¬ sizeMatches entriesPos header.nlibs header.lenStrings size then
    let nlibs := swapBytes header.nlibs
    let lenStrings := swapBytes header.lenStrings
    if ¬ sizeMatches entriesPos nlibs lenStrings size then .err .invalidData
    else .ok (true, nlibs)
  else .ok (false, header.nlibs)

/-- What `read_ld_so_cache` makes of the content of the file. -/
def fromBytes (host : ByteOrder) (buf : List UInt8) : Outcome IoErrorKind LdsoCache := do
  let offset ← Outcome.okOr (findSubsequence cacheMagicNew buf) .invalidData
  let (header, _) ← (CacheFileNew.read host).run (buf.drop offset)
  if header.magic ≠ cacheMagicNew then .err .invalidData
  else if header.version ≠ cacheVersion then .err .invalidData
  else do
    let entriesPos := offset + CacheFileNew.size
    let (byteSwap, nlibs) ← byteSwapOf header entriesPos buf.length
    let tablePos := entriesPos + FileEntryNew.size * nlibs.toNat
    let table := buf.drop tablePos
    let (entries, _) ←
      (readMany (FileEntryNew.read host) nlibs.toNat).run (buf.drop entriesPos)
    pushEntries byteSwap table (tablePos - offset) entries ∅

/-- `read` stands for opening a path and reading the file to its end. -/
def readLdSoCache (host : ByteOrder) (read : OsString → Outcome IoErrorKind (List UInt8))
    (sysroot : OsString) : Outcome IoErrorKind LdsoCache := do
  let buf ← read (push sysroot (ascii "etc/ld.so.cache"))
  fromBytes host buf

end LdsoCache

/-! ## Decoding a written cache -/

/-- The first occurrence of a needle whose first byte does not come again in it. -/
theorem findSubsequence_append {b : UInt8} {ns pre : List UInt8} (hb : b ∉ ns)
    (hpre : ¬ b :: ns <:+: pre) (rest : List UInt8) :
    findSubsequence (b :: ns) (pre ++ (b :: ns ++ rest)) = some pre.length := by
  induction pre with
  | nil =>
      have hinit : b :: ns <+: b :: (ns ++ rest) := List.prefix_append (b :: ns) rest
      rw [List.nil_append, List.cons_append, findSubsequence, if_pos hinit]
      rfl
  | cons c pre ih =>
      have hnot : ¬ b :: ns <+: c :: (pre ++ (b :: ns ++ rest)) := by
        intro h
        rw [← List.cons_append] at h
        by_cases hle : (b :: ns).length ≤ (c :: pre).length
        · have hp := List.prefix_of_prefix_length_le h (List.prefix_append (c :: pre) _) hle
          exact hpre hp.isInfix
        · have hp := List.prefix_of_prefix_length_le (List.prefix_append (c :: pre) _) h (by omega)
          obtain ⟨t, ht⟩ := hp
          obtain ⟨r, hr⟩ := h
          have htail : t ++ r = b :: ns ++ rest := by
            have h2 : c :: pre ++ (t ++ r) = c :: pre ++ (b :: ns ++ rest) := by
              rw [← List.append_assoc, ht]
              exact hr
            exact List.append_cancel_left h2
          have htne : t ≠ [] := by
            rintro rfl
            rw [List.append_nil] at ht
            exact hle (Nat.le_of_eq (congrArg List.length ht.symm))
          obtain ⟨x, t, rfl⟩ := List.exists_cons_of_ne_nil htne
          have hx : x = b := by simpa using congrArg List.head? htail
          have hns : pre ++ x :: t = ns := by simpa using congrArg List.tail ht
          exact hb (by rw [← hns, hx]; simp)
      have hrec := ih fun h => hpre (h.trans (List.infix_cons (List.infix_refl pre)))
      rw [List.cons_append, findSubsequence, if_neg hnot, hrec]
      rfl

/-- The value a host reads where `x` was written in the order `o`. -/
def asRead (host o : ByteOrder) (x : UInt32) : UInt32 :=
  UInt32.ofNat (ofBytes host (toBytes o 4 x.toNat))

theorem asRead_self (o : ByteOrder) (x : UInt32) : asRead o o x = x := by
  rw [asRead, ofBytes_toBytes o x.toNat_lt, UInt32.ofNat_toNat]

theorem swapBytes_asRead {host o : ByteOrder} (h : o ≠ host) (x : UInt32) :
    swapBytes (asRead host o x) = x := by
  have ho : host.swap = o := by
    cases host <;> cases o <;> first | rfl | exact absurd rfl h
  rw [asRead, swapBytes_ofBytes host (toBytes_length o 4 _), ho]
  exact asRead_self o x

theorem reads_asRead (host o : ByteOrder) (x : UInt32) :
    Reads (readU32 IoErrorKind.unexpectedEof host) (toBytes o 4 x.toNat) (asRead host o x) := by
  have h := (Reads.exact IoErrorKind.unexpectedEof (toBytes o 4 x.toNat)).map
    fun bs => UInt32.ofNat (ofBytes host bs)
  rwa [toBytes_length] at h

def FileEntryNew.encode (o : ByteOrder) (e : FileEntryNew) : List UInt8 :=
  toBytes o 4 e.flags.toUInt32.toNat ++
  (toBytes o 4 e.key.toNat ++
  (toBytes o 4 e.value.toNat ++
  (toBytes o 4 e.osversion.toNat ++
   toBytes o 8 e.hwcap.toNat)))

def CacheFileNew.encode (o : ByteOrder) (h : CacheFileNew) : List UInt8 :=
  h.magic ++
  (h.version ++
  (toBytes o 4 h.nlibs.toNat ++
  (toBytes o 4 h.lenStrings.toNat ++
   h.unused.flatMap fun x => toBytes o 4 x.toNat)))

/-- The entry as a host sees it. -/
def FileEntryNew.asRead (host o : ByteOrder) (e : FileEntryNew) : FileEntryNew :=
  { flags := (Elfkit.asRead host o e.flags.toUInt32).toInt32
    key := Elfkit.asRead host o e.key
    value := Elfkit.asRead host o e.value
    osversion := Elfkit.asRead host o e.osversion
    hwcap := UInt64.ofNat (ofBytes host (toBytes o 8 e.hwcap.toNat)) }

theorem FileEntryNew.encode_length (o : ByteOrder) (e : FileEntryNew) :
    (e.encode o).length = FileEntryNew.size := by
  simp [FileEntryNew.encode, FileEntryNew.size]

theorem FileEntryNew.reads_read (host o : ByteOrder) (e : FileEntryNew) :
    Reads (FileEntryNew.read host) (e.encode o) (e.asRead host o) := by
  have hhwcap := (Reads.exact IoErrorKind.unexpectedEof (toBytes o 8 e.hwcap.toNat)).map
    fun bs => UInt64.ofNat (ofBytes host bs)
  rw [toBytes_length] at hhwcap
  refine (reads_asRead host o e.flags.toUInt32).bind ?_
  refine (reads_asRead host o e.key).bind ?_
  refine (reads_asRead host o e.value).bind ?_
  refine (reads_asRead host o e.osversion).bind ?_
  exact Reads.last hhwcap rfl

/-- The header as a host sees it. -/
def CacheFileNew.asRead (host o : ByteOrder) (h : CacheFileNew) : CacheFileNew :=
  { magic := h.magic
    version := h.version
    nlibs := Elfkit.asRead host o h.nlibs
    lenStrings := Elfkit.asRead host o h.lenStrings
    unused := h.unused.map (Elfkit.asRead host o) }

/-- A header whose byte fields have the length of the fields. -/
structure CacheFileNew.WellFormed (h : CacheFileNew) : Prop where
  magic : h.magic = cacheMagicNew
  version : h.version = cacheVersion
  unused : h.unused.length = 5

theorem CacheFileNew.encode_length (o : ByteOrder) {h : CacheFileNew} (hw : h.WellFormed) :
    (h.encode o).length = CacheFileNew.size := by
  have hmagic : cacheMagicNew.length = 17 := rfl
  have hversion : cacheVersion.length = 3 := rfl
  simp [CacheFileNew.encode, CacheFileNew.size, hw.magic, hw.version, hw.unused, hmagic, hversion]

theorem CacheFileNew.reads_read (host o : ByteOrder) {h : CacheFileNew} (hw : h.WellFormed) :
    Reads (CacheFileNew.read host) (h.encode o) (h.asRead host o) := by
  have hmagic := Reads.exact IoErrorKind.unexpectedEof h.magic
  rw [show h.magic.length = 17 by rw [hw.magic]; rfl] at hmagic
  have hversion := Reads.exact IoErrorKind.unexpectedEof h.version
  rw [show h.version.length = 3 by rw [hw.version]; rfl] at hversion
  have hunused := Reads.manyMap (r := readU32 IoErrorKind.unexpectedEof host)
    (fun x => toBytes o 4 x.toNat) (Elfkit.asRead host o) (l := h.unused)
    fun x _ => reads_asRead host o x
  rw [hw.unused] at hunused
  refine hmagic.bind ?_
  refine hversion.bind ?_
  refine (reads_asRead host o h.nlibs).bind ?_
  refine (reads_asRead host o h.lenStrings).bind ?_
  exact hunused.last rfl

/-- An entry of a cache as its writer sees it: the record and its two strings. -/
structure CacheEntry where
  raw : FileEntryNew
  key : OsString
  value : OsString

/-- What the writer of a cache decided.  `before` is what stands in front of the
header, such as a cache of the old format. -/
structure CacheImage where
  before : List UInt8
  order : ByteOrder
  unused : List UInt32
  entries : List CacheEntry
  table : List UInt8

namespace CacheImage

def header (im : CacheImage) : CacheFileNew :=
  { magic := cacheMagicNew
    version := cacheVersion
    nlibs := UInt32.ofNat im.entries.length
    lenStrings := UInt32.ofNat im.table.length
    unused := im.unused }

def records (im : CacheImage) : List UInt8 :=
  im.entries.flatMap fun e => e.raw.encode im.order

def file (im : CacheImage) : List UInt8 :=
  im.before ++ (im.header.encode im.order ++ (im.records ++ im.table))

/-- The distance of the string table from the header. -/
def tableOffset (im : CacheImage) : Nat :=
  CacheFileNew.size + FileEntryNew.size * im.entries.length

/-- The string lies in the table at the place the header-relative offset names. -/
def HasString (im : CacheImage) (pos : UInt32) (s : OsString) : Prop :=
  im.tableOffset ≤ pos.toNat ∧ StringAt im.table (pos.toNat - im.tableOffset) s

instance (im : CacheImage) (pos : UInt32) (s : OsString) : Decidable (im.HasString pos s) :=
  inferInstanceAs (Decidable (_ ∧ _))

structure Valid (im : CacheImage) : Prop where
  before : ¬ cacheMagicNew <:+: im.before
  unused : im.unused.length = 5
  nlibs : im.entries.length < 2 ^ 32
  lenStrings : im.table.length < 2 ^ 32
  strings : ∀ e ∈ im.entries, im.HasString e.raw.key e.key ∧ im.HasString e.raw.value e.value

/-- The two counts, read in host order, satisfy the size equation. -/
def HostCountsMatch (host : ByteOrder) (im : CacheImage) : Prop :=
  LdsoCache.sizeMatches (im.before.length + CacheFileNew.size)
    (asRead host im.order im.header.nlibs) (asRead host im.order im.header.lenStrings)
    im.file.length

instance (host : ByteOrder) (im : CacheImage) : Decidable (im.HostCountsMatch host) :=
  inferInstanceAs (Decidable (_ = _))

/-- The values of a key, in entry order. -/
def values (im : CacheImage) (key : OsString) : List OsString :=
  (im.entries.filter fun e => e.key = key).map CacheEntry.value

theorem records_length (im : CacheImage) :
    im.records.length = FileEntryNew.size * im.entries.length := by
  rw [records, List.length_flatMap]
  simp [FileEntryNew.encode_length, Nat.mul_comm]

theorem header_wellFormed {im : CacheImage} (hv : im.Valid) : im.header.WellFormed :=
  ⟨rfl, rfl, hv.unused⟩

theorem file_length {im : CacheImage} (hv : im.Valid) :
    im.file.length = im.before.length + CacheFileNew.size +
      FileEntryNew.size * im.entries.length + im.table.length := by
  simp only [file, List.length_append, CacheFileNew.encode_length _ (header_wellFormed hv),
    records_length]
  omega

/-- The counts the writer wrote satisfy the size equation. -/
theorem countsMatch {im : CacheImage} (hv : im.Valid) :
    LdsoCache.sizeMatches (im.before.length + CacheFileNew.size) im.header.nlibs
      im.header.lenStrings im.file.length := by
  have hn : im.header.nlibs.toNat = im.entries.length :=
    UInt32.toNat_ofNat'.trans (Nat.mod_eq_of_lt hv.nlibs)
  have ht : im.header.lenStrings.toNat = im.table.length :=
    UInt32.toNat_ofNat'.trans (Nat.mod_eq_of_lt hv.lenStrings)
  rw [LdsoCache.sizeMatches, hn, ht, file_length hv, Nat.mul_comm im.entries.length]

end CacheImage

namespace LdsoCache

theorem stringAt_eq {im : CacheImage} {pos : UInt32} {s : OsString} (h : im.HasString pos s) :
    stringAt im.table im.tableOffset pos = .ok s := by
  obtain ⟨hle, hstr⟩ := h
  rw [stringAt, if_pos ⟨hle, hstr.2.1⟩, untilNul]
  exact congrArg Outcome.ok hstr.takeWhile

/-- The map after the loop: every entry pushed, in order. -/
def pushAll (cache : LdsoCache) (entries : List CacheEntry) : LdsoCache :=
  entries.foldl (fun c e => c.pushValue e.key e.value) cache

theorem pushEntries_eq {im : CacheImage} {host : ByteOrder} {byteSwap : Bool}
    (hswap : ∀ x : UInt32,
      (if byteSwap then swapBytes (asRead host im.order x) else asRead host im.order x) = x)
    (cache : LdsoCache) (entries : List CacheEntry)
    (h : ∀ e ∈ entries, im.HasString e.raw.key e.key ∧ im.HasString e.raw.value e.value) :
    pushEntries byteSwap im.table im.tableOffset
      (entries.map fun e => e.raw.asRead host im.order) cache = .ok (cache.pushAll entries) := by
  induction entries generalizing cache with
  | nil => rfl
  | cons e es ih =>
      obtain ⟨hkey, hval⟩ := h e List.mem_cons_self
      rw [List.map_cons, pushEntries]
      simp only [FileEntryNew.asRead, hswap, stringAt_eq hkey, stringAt_eq hval, Outcome.ok_bind]
      exact ih _ fun e' he' => h e' (List.mem_cons_of_mem e he')

theorem lookup_pushAll (cache : LdsoCache) (entries : List CacheEntry) (key : OsString) :
    (cache.pushAll entries).lookup key =
      if entries.any (fun e => e.key = key) then
        some (cache.values key ++ (entries.filter fun e => e.key = key).map CacheEntry.value)
      else cache.lookup key := by
  induction entries generalizing cache with
  | nil => rfl
  | cons e es ih =>
      rw [pushAll, List.foldl_cons, ← pushAll, ih]
      by_cases hkey : e.key = key
      · have hhere : (cache.pushValue e.key e.value).lookup key =
            some (cache.values key ++ [e.value]) := by
          rw [pushValue, hkey, AList.lookup_insert, values]
        have hvals : (cache.pushValue e.key e.value).values key =
            cache.values key ++ [e.value] := by
          rw [values, hhere, Option.getD_some]
        rw [hhere, hvals]
        by_cases hes : es.any (fun e => e.key = key) = true
        · simp [hes, hkey]
        · have hfilter : es.filter (fun e => decide (e.key = key)) = [] := by
            simpa [List.filter_eq_nil_iff] using hes
          simp [hes, hkey, hfilter]
      · have hhere : (cache.pushValue e.key e.value).lookup key = cache.lookup key :=
          AList.lookup_insert_ne (Ne.symm hkey)
        have hvals : (cache.pushValue e.key e.value).values key = cache.values key := by
          rw [values, hhere, values]
        rw [hhere, hvals]
        simp [hkey]

/-- The order test of the decoder comes out right, and with it the number of
entries. -/
theorem byteSwapOf_eq {im : CacheImage} (hv : im.Valid) {host : ByteOrder}
    (horder : im.order = host ∨ ¬ im.HostCountsMatch host) :
    ∃ byteSwap : Bool,
      (∀ x : UInt32,
        (if byteSwap then swapBytes (asRead host im.order x) else asRead host im.order x) = x) ∧
      byteSwapOf (im.header.asRead host im.order) (im.before.length + CacheFileNew.size)
        im.file.length = .ok (byteSwap, im.header.nlibs) := by
  have hcounts := CacheImage.countsMatch hv
  by_cases ho : im.order = host
  · refine ⟨false, fun x => ?_, ?_⟩
    · rw [if_neg Bool.false_ne_true, ho, asRead_self]
    · simp only [byteSwapOf, CacheFileNew.asRead, ho, asRead_self]
      rw [if_neg (not_not.mpr hcounts)]
  · have hhost : ¬ im.HostCountsMatch host := horder.resolve_left ho
    rw [CacheImage.HostCountsMatch] at hhost
    refine ⟨true, fun x => ?_, ?_⟩
    · rw [if_pos rfl, swapBytes_asRead ho]
    · simp only [byteSwapOf, CacheFileNew.asRead, swapBytes_asRead ho]
      rw [if_pos hhost, if_neg (not_not.mpr hcounts)]

theorem findSubsequence_file {im : CacheImage} (hv : im.Valid) :
    findSubsequence cacheMagicNew im.file = some im.before.length := by
  have hbefore := hv.before
  have hfile : im.file = im.before ++ (cacheMagicNew ++
      (im.header.encode im.order ++ (im.records ++ im.table)).drop cacheMagicNew.length) := by
    rw [CacheImage.file, CacheFileNew.encode]
    simp only [List.append_assoc]
    rw [show im.header.magic = cacheMagicNew from rfl, List.drop_left]
  rw [hfile]
  have hborder : (103 : UInt8) ∉ cacheMagicNew.tail := by decide
  exact findSubsequence_append hborder hbefore _

theorem fromBytes_eq {im : CacheImage} (hv : im.Valid) {host : ByteOrder}
    (horder : im.order = host ∨ ¬ im.HostCountsMatch host) :
    fromBytes host im.file = .ok (pushAll ∅ im.entries) := by
  obtain ⟨byteSwap, hswap, hbyteSwap⟩ := byteSwapOf_eq hv horder
  have hw := CacheImage.header_wellFormed hv
  have hn : im.header.nlibs.toNat = im.entries.length :=
    UInt32.toNat_ofNat'.trans (Nat.mod_eq_of_lt hv.nlibs)
  have hdrop : im.file.drop im.before.length =
      im.header.encode im.order ++ (im.records ++ im.table) := List.drop_left
  have hheader := CacheFileNew.reads_read host im.order hw (im.records ++ im.table)
  have hentriesDrop : im.file.drop (im.before.length + CacheFileNew.size) =
      im.records ++ im.table := by
    rw [← List.drop_drop, hdrop, ← CacheFileNew.encode_length im.order hw, List.drop_left]
  have hentries := Reads.manyMap (r := FileEntryNew.read host)
    (fun e : CacheEntry => e.raw.encode im.order) (fun e => e.raw.asRead host im.order)
    (l := im.entries) (fun e _ => FileEntryNew.reads_read host im.order e.raw) im.table
  have htableDrop : im.file.drop (im.before.length + CacheFileNew.size +
      FileEntryNew.size * im.entries.length) = im.table := by
    rw [← List.drop_drop, hentriesDrop, ← CacheImage.records_length, List.drop_left]
  have hoffset : im.before.length + CacheFileNew.size + FileEntryNew.size * im.entries.length -
      im.before.length = im.tableOffset := by
    rw [CacheImage.tableOffset]
    omega
  have hmagic : (im.header.asRead host im.order).magic = cacheMagicNew := hw.magic
  have hversion : (im.header.asRead host im.order).version = cacheVersion := hw.version
  rw [fromBytes, findSubsequence_file hv, Outcome.okOr_some, Outcome.ok_bind, hdrop, hheader,
    Outcome.ok_bind]
  simp only [hmagic, hversion, ne_eq, not_true_eq_false, if_false, hbyteSwap, Outcome.ok_bind, hn,
    hentriesDrop, htableDrop, hoffset]
  rw [CacheImage.records, hentries, Outcome.ok_bind]
  exact pushEntries_eq hswap ∅ im.entries hv.strings

/-- A written cache is decoded to its own entries: the keys are the keys of the
entries, and each has the values of its entries in their order. -/
theorem readLdSoCache_image (host : ByteOrder)
    (read : OsString → Outcome IoErrorKind (List UInt8)) (sysroot : OsString) (im : CacheImage)
    (hv : im.Valid) (horder : im.order = host ∨ ¬ im.HostCountsMatch host)
    (hread : read (push sysroot (ascii "etc/ld.so.cache")) = .ok im.file) :
    ∃ cache, readLdSoCache host read sysroot = .ok cache ∧
      (∀ key, key ∈ cache ↔ ∃ e ∈ im.entries, e.key = key) ∧
      ∀ key, key ∈ cache → cache.lookup key = some (im.values key) := by
  have hlookup := lookup_pushAll ∅ im.entries
  have hmem : ∀ key, key ∈ pushAll ∅ im.entries ↔ ∃ e ∈ im.entries, e.key = key := by
    intro key
    rw [← AList.lookup_isSome, hlookup]
    by_cases hkey : im.entries.any (fun e => e.key = key) = true
    · rw [if_pos hkey]
      simpa using hkey
    · rw [if_neg hkey]
      simpa using hkey
  refine ⟨_, ?_, hmem, fun key hkey => ?_⟩
  · rw [readLdSoCache, hread, Outcome.ok_bind, fromBytes_eq hv horder]
  · have hany : im.entries.any (fun e => e.key = key) = true := by
      simpa using (hmem key).mp hkey
    rw [hlookup, if_pos hany]
    rfl

/-- A cache with one key, written on a big-endian machine behind an old cache. -/
def sampleImage : CacheImage :=
  { before := ascii "ld.so-1.7.0"
    order := .big
    unused := [0, 0, 0, 0, 0]
    entries := [
      { raw := { flags := 3, key := 96, value := 101, osversion := 0, hwcap := 0 }
        key := ascii "liba", value := ascii "/a/liba" },
      { raw := { flags := 3, key := 96, value := 109, osversion := 0, hwcap := 0 }
        key := ascii "liba", value := ascii "/b/liba" }]
    table := ascii "liba" ++ 0 :: (ascii "/a/liba" ++ 0 :: ascii "/b/liba") }

theorem sampleImage_valid : sampleImage.Valid :=
  ⟨by decide +kernel, rfl, by decide, by decide, by decide +kernel⟩

theorem readLdSoCache_sampleImage :
    ∃ cache, readLdSoCache .little (fun _ => .ok sampleImage.file) (ascii "/") = .ok cache ∧
      cache.lookup (ascii "liba") = some [ascii "/a/liba", ascii "/b/liba"] := by
  obtain ⟨cache, hread, hkeys, hvals⟩ := readLdSoCache_image .little
    (fun _ => .ok sampleImage.file) (ascii "/") sampleImage sampleImage_valid
    (Or.inr (by decide +kernel)) rfl
  have hmem := (hkeys (ascii "liba")).mpr ⟨_, List.mem_cons_self, rfl⟩
  refine ⟨cache, hread, ?_⟩
  rw [hvals _ hmem]
  decide +kernel

end LdsoCache

end Elfkit
end DracutInstall

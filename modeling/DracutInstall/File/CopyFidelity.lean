/-
A copy that returns has copied.

`Inv` is what holds at the head of the loop.  `srcpos` counts the bytes moved and
lags behind the offset in the source once a hole was skipped; below it, and in
the holes, source and destination agree.  `Extent` adds what the head of the loop
looks up: between `srcpos` and `next_beg` there is only a hole.
-/
import Mathlib.Tactic.Tauto
import DracutInstall.File.Copy

namespace DracutInstall
namespace File

open Rust SparseFile

def Transfer.isMoved : Transfer → Prop
  | .moved _ => True
  | _ => False

/-- The errors on which `copy` goes on with another mechanism. -/
def fallbackErrno (e : Errno) : Prop := e = .enosys ∨ e = .eperm ∨ e = .exdev ∨ e = .einval

def Transfer.isFallback : Transfer → Prop
  | .moved _ => False
  | .errno e => fallbackErrno e
  | .writeFailed _ _ e => fallbackErrno e

/-- The source does not change, the destination is a regular file, `lseek` does
not fail but as documented, and no mechanism is given up once bytes were moved. -/
structure Kernel.Regular (k : Kernel) : Prop where
  unchanged : k.len = k.source.size
  destIsFile : k.setup.destIsFile = true
  seeks : ∀ n, k.seekFault n = none
  fallbackFirst : ∀ i j, i < j → (k.transfer i).isMoved → ¬ (k.transfer j).isFallback

theorem Kernel.Regular.seekEnd {k : Kernel} (hk : k.Regular) : k.seekEnd = k.source.size :=
  k.seekEnd_eq fun _ => hk.unchanged

/-! ## What has been copied -/

/-- The destination agrees with the source below `n`, and in the holes where they
are kept. -/
structure Content (k : Kernel) (sparse : Bool) (n : Nat) (dst : List UInt8) : Prop where
  length : dst.length = k.source.size ∨ (sparse = false ∧ dst.length = n)
  below : ∀ p < n, dst[p]? = k.source.content[p]?
  holes : sparse = true → ∀ p, k.source.data p = false → dst[p]? = k.source.content[p]?

variable {k : Kernel}

theorem Content.write {sparse : Bool} {n num : Nat} {dst : List UInt8}
    (h : Content k sparse n dst) (hle : n + num ≤ k.source.size) :
    Content k sparse (n + num) (writeAt dst n (slice k.source.content n num)) := by
  have hdst : n ≤ dst.length := by
    rcases h.length with hl | ⟨_, hl⟩ <;> omega
  have hslice : (slice k.source.content n num).length = num := slice_length hle
  have hget := writeAt_slice_getElem? (s := k.source.content) hle hdst
  refine ⟨?_, fun p hp => ?_, fun hs p hp => ?_⟩
  · rw [writeAt_length hdst, hslice]
    rcases h.length with hl | ⟨hs, hl⟩
    · left
      omega
    · right
      exact ⟨hs, by omega⟩
  · rw [hget]
    by_cases hin : n ≤ p ∧ p < n + num
    · rw [if_pos hin]
    · rw [if_neg hin]
      exact h.below p (by omega)
  · rw [hget]
    by_cases hin : n ≤ p ∧ p < n + num
    · rw [if_pos hin]
    · rw [if_neg hin]
      exact h.holes hs p hp

/-- A hole agrees already. -/
theorem Content.skip {sparse : Bool} {n beg : Nat} {dst : List UInt8} (h : Content k sparse n dst)
    (hle : n ≤ beg)
    (hgap : ∀ r, n ≤ r → r < beg → sparse = true ∧ k.source.data r = false) :
    Content k sparse beg dst := by
  refine ⟨?_, fun p hp => ?_, h.holes⟩
  · rcases h.length with hl | ⟨hs, hl⟩
    · exact Or.inl hl
    · rcases Nat.eq_or_lt_of_le hle with heq | hlt
      · exact Or.inr ⟨hs, by omega⟩
      · have hsparse := (hgap n (Nat.le_refl n) hlt).1
        rw [hs] at hsparse
        cases hsparse
  · by_cases hpn : p < n
    · exact h.below p hpn
    · obtain ⟨hs, hdata⟩ := hgap p (by omega) hp
      exact h.holes hs p hdata

/-- Less is copied as well, where the length does not tell. -/
theorem Content.anti {sparse : Bool} {m n : Nat} {dst : List UInt8} (h : Content k sparse n dst)
    (hle : m ≤ n) (hs : sparse = true ∨ m = n) : Content k sparse m dst := by
  refine ⟨?_, fun p hp => h.below p (by omega), h.holes⟩
  rcases h.length with hl | ⟨hd, hl⟩
  · exact Or.inl hl
  · right
    refine ⟨hd, ?_⟩
    rcases hs with hs | hs
    · rw [hd] at hs
      cases hs
    · omega

theorem Content.eq {sparse : Bool} {dst : List UInt8} (h : Content k sparse k.source.size dst) :
    dst = k.source.content := by
  have hlen : dst.length = k.source.content.length := by
    rcases h.length with hl | ⟨_, hl⟩ <;> exact hl
  apply List.ext_getElem?
  intro p
  by_cases hp : p < k.source.size
  · exact h.below p hp
  · have hsrc : k.source.content.length ≤ p := Nat.le_of_not_lt hp
    rw [List.getElem?_eq_none (by omega), List.getElem?_eq_none hsrc]

/-! ## The invariant of the loop -/

/-- The next extent: `len` bytes at `beg`, with nothing but a hole before it. -/
structure Extent (k : Kernel) (pos : Nat) (st : CopyState) (beg len : Nat) : Prop where
  nextBeg : st.nextBeg = beg
  nextLen : st.nextLen = len
  lenPos : 0 < len
  le : pos ≤ beg
  lt : beg < k.source.size
  gap : ∀ r, pos ≤ r → r < beg → st.canHandleSparse = true ∧ k.source.data r = false
  within : st.canHandleSparse = true → beg + len ≤ k.source.size

structure Inv (k : Kernel) (pos : Nat) (st : CopyState) : Prop where
  srcpos : st.srcpos = pos
  le : pos ≤ k.source.size
  content : Content k st.canHandleSparse pos st.dst
  moved : 0 < pos → ∃ i < st.transfers, (k.transfer i).isMoved
  posOut : pos = 0 → st.nextBeg = 0 → st.posOut = 0
  extent : pos = 0 → pos < k.source.size → ∃ beg len, Extent k pos st beg len
  nextLen : st.canHandleSparse = false → pos < k.source.size → st.nextLen = k.source.size
  posIn : st.canHandleSparse = false → pos = 0 → st.posIn = 0
  mechanism : st.canHandleSparse = false → 0 < pos → pos < k.source.size →
    st.useCopyFileRange = true ∨ (st.useSendfile = true ∧ st.posOut = pos)

/-- Where no hole is skipped the next extent starts at `srcpos`. -/
theorem Extent.eq_pos {pos beg len : Nat} {st : CopyState} (h : Extent k pos st beg len)
    (hs : st.canHandleSparse = false) : beg = pos := by
  rcases Nat.eq_or_lt_of_le h.le with heq | hlt
  · exact heq.symm
  · have hsparse := (h.gap pos (Nat.le_refl pos) hlt).1
    rw [hs] at hsparse
    cases hsparse

/-- If the next call gives a mechanism up, nothing was moved or holes are skipped. -/
def MayGiveUp (k : Kernel) (pos : Nat) (st : CopyState) : Prop :=
  (k.transfer st.transfers).isFallback → pos = 0 ∨ st.canHandleSparse = true

/-- Once a byte was moved no mechanism is given up. -/
theorem Inv.pos_eq_zero {pos : Nat} {st : CopyState} (hk : k.Regular) (h : Inv k pos st)
    (hf : (k.transfer st.transfers).isFallback) : pos = 0 := by
  rcases Nat.eq_zero_or_pos pos with hzero | hpos
  · exact hzero
  · obtain ⟨i, hi, hmoved⟩ := h.moved hpos
    exact absurd hf (hk.fallbackFirst i st.transfers hi hmoved)

theorem seekExtent_ok {find : Nat → Option Nat} {off : Int} {st st' : CopyState} {p : Nat}
    (h : seekExtent k find off st = (.ok p, st')) :
    find off.toNat = some p ∧ st' = { st with seeks := st.seeks + 1, posIn := p } := by
  unfold seekExtent at h
  cases hfault : k.seekFault st.seeks with
  | some e =>
      simp only [hfault, Prod.mk.injEq, reduceCtorEq, false_and] at h
  | none =>
      simp only [hfault] at h
      split at h
      · simp at h
      · split at h
        · simp at h
        · cases hfind : find off.toNat with
          | none =>
              rw [hfind] at h
              simp at h
          | some q =>
              rw [hfind] at h
              simp only [Prod.mk.injEq, Except.ok.injEq] at h
              obtain ⟨rfl, rfl⟩ := h
              exact ⟨rfl, rfl⟩

/-- The invariant away from the start, where nothing has to be known of the first
extent any more. -/
theorem Inv.of_pos {pos : Nat} {st : CopyState} (hpos : 0 < pos) (hsrcpos : st.srcpos = pos)
    (hle : pos ≤ k.source.size) (hcontent : Content k st.canHandleSparse pos st.dst)
    (hmoved : ∃ i < st.transfers, (k.transfer i).isMoved)
    (hnextLen : st.canHandleSparse = false → pos < k.source.size → st.nextLen = k.source.size)
    (hmechanism : st.canHandleSparse = false → pos < k.source.size →
      st.useCopyFileRange = true ∨ (st.useSendfile = true ∧ st.posOut = pos)) :
    Inv k pos st where
  srcpos := hsrcpos
  le := hle
  content := hcontent
  moved := fun _ => hmoved
  posOut := fun h => by omega
  extent := fun h => by omega
  nextLen := hnextLen
  posIn := fun _ h => by omega
  mechanism := fun hs _ hlt => hmechanism hs hlt

/-- Before anything was moved, and where holes are skipped, a mechanism may be given
up. -/
theorem Inv.giveUp {pos : Nat} {st : CopyState} (h : Inv k pos st)
    (hfree : pos = 0 ∨ st.canHandleSparse = true) (flags : Flags) (cfr sf : Bool) :
    Inv k pos { st with
      useCopyFileRange := cfr, useSendfile := sf, flags := flags
      transfers := st.transfers + 1 } where
  srcpos := h.srcpos
  le := h.le
  content := h.content
  moved := fun hpos => by
    obtain ⟨i, hi, hmoved⟩ := h.moved hpos
    exact ⟨i, Nat.lt_succ_of_lt hi, hmoved⟩
  posOut := h.posOut
  extent := fun hz hlt => by
    obtain ⟨beg, len, he⟩ := h.extent hz hlt
    exact ⟨beg, len, he.nextBeg, he.nextLen, he.lenPos, he.le, he.lt, he.gap, he.within⟩
  nextLen := h.nextLen
  posIn := h.posIn
  mechanism := fun hs hpos => by
    rcases hfree with hz | hsparse
    · omega
    · exact nomatch hs.symm.trans hsparse

theorem Kernel.count_bounds {off len : Nat} (hoff : off < k.source.size) (hlen : 0 < len)
    (n : Nat) :
    0 < k.count off len n ∧ k.count off len n ≤ len ∧ off + k.count off len n ≤ k.source.size := by
  unfold Kernel.count
  omega

/-! ## One round -/

/-- The head of the loop finds the next extent, or fails. -/
theorem nextExtent_inv {pos : Nat} {st st' : CopyState} (hend : k.seekEnd = k.source.size)
    (h : Inv k pos st) (hlt : pos < k.source.size) (hn : nextExtent k st = (.ok (), st')) :
    st'.canHandleSparse = st.canHandleSparse ∧ Inv k pos st' ∧
      ∃ beg len, Extent k pos st' beg len := by
  unfold nextExtent at hn
  rcases Nat.eq_zero_or_pos pos with hzero | hpos
  · rw [if_neg (by rw [h.srcpos, hzero]; simp)] at hn
    cases hn
    exact ⟨rfl, h, h.extent hzero hlt⟩
  · rw [if_pos (by rw [h.srcpos]; omega)] at hn
    by_cases hs : st.canHandleSparse = true
    · rw [if_pos hs] at hn
      split at hn
      · simp at hn
      · rename_i beg st1 hbeg
        obtain ⟨hdata, rfl⟩ := seekExtent_ok hbeg
        rw [h.srcpos, Int.toNat_natCast] at hdata
        obtain ⟨hle, hltBeg, hdataBeg, hgap⟩ := k.seekData_eq_some hdata
        dsimp only at hn
        split at hn
        · simp at hn
        · rename_i stop st2 hstop
          obtain ⟨hhole, rfl⟩ := seekExtent_ok hstop
          obtain ⟨q, hq, hlt1, hle1⟩ := k.seekHole_of_data hltBeg hdataBeg
          rw [hend] at hltBeg hle1
          have hqs : stop = q := by
            rw [Int.toNat_natCast] at hhole
            rw [hhole] at hq
            exact Option.some.inj hq
          cases hn
          have hdense : ¬ st.canHandleSparse = false := by simp [hs]
          refine ⟨rfl, Inv.of_pos hpos h.srcpos h.le h.content (h.moved hpos)
            (fun hs' => absurd hs' hdense) (fun hs' => absurd hs' hdense),
            beg, stop - beg, rfl, ?_, by omega, hle, hltBeg,
            fun r h1 h2 => ⟨hs, hgap r h1 h2⟩, fun _ => by omega⟩
          show (stop : Int) - beg = ((stop - beg : Nat) : Int)
          omega
    · rw [if_neg hs] at hn
      cases hn
      have hdense : st.canHandleSparse = false := by simpa using hs
      exact ⟨rfl, Inv.of_pos hpos h.srcpos h.le h.content (h.moved hpos) h.nextLen
        (fun hs' => h.mechanism hs' hpos), pos, k.source.size, h.srcpos, h.nextLen hdense hlt,
        by omega, Nat.le_refl pos, hlt, fun r h1 h2 => by omega, fun hs' => absurd hs' hs⟩

/-- What was copied up to the extent, and the part of it that was moved. -/
theorem Extent.write {pos beg len num : Nat} {st : CopyState} (he : Extent k pos st beg len)
    (h : Inv k pos st) (hle : beg + num ≤ k.source.size) :
    Content k st.canHandleSparse (pos + num)
      (writeAt st.dst beg (slice k.source.content beg num)) := by
  have hwrite := (h.content.skip he.le he.gap).write hle
  refine hwrite.anti (by have hbeg := he.le; omega) ?_
  cases hs : st.canHandleSparse with
  | true => exact Or.inl rfl
  | false => exact Or.inr (by rw [he.eq_pos hs])

theorem Extent.beg_toNat {pos beg len : Nat} {st : CopyState} (he : Extent k pos st beg len) :
    st.nextBeg.toNat = beg := by
  rw [he.nextBeg, Int.toNat_natCast]

theorem Extent.len_toNat {pos beg len : Nat} {st : CopyState} (he : Extent k pos st beg len) :
    st.nextLen.toNat = len := by
  rw [he.nextLen, Int.toNat_natCast]

theorem copyFileRangeFailed_again {e : Errno} {st st' : CopyState}
    (h : copyFileRangeFailed e st = .again st') :
    fallbackErrno e ∧ ∃ flags, st' = { st with flags := flags, useCopyFileRange := false } := by
  unfold copyFileRangeFailed at h
  unfold fallbackErrno
  split at h
  · cases h
    exact ⟨by tauto, _, rfl⟩
  · split at h
    · cases h
      exact ⟨by tauto, st.flags, rfl⟩
    · cases h

theorem sendfileFailed_again {e : Errno} {st st' : CopyState}
    (h : sendfileFailed e st = .again st') :
    fallbackErrno e ∧ ∃ flags, st' = { st with flags := flags, useSendfile := false } := by
  unfold sendfileFailed at h
  unfold fallbackErrno
  split at h
  · cases h
    exact ⟨by tauto, _, rfl⟩
  · split at h
    · cases h
      exact ⟨by tauto, st.flags, rfl⟩
    · cases h

/-- A transfer moved some bytes of the extent. -/
theorem Inv.advance {pos beg len num : Nat} {st : CopyState} (h : Inv k pos st)
    (he : Extent k pos st beg len) (hpos : 0 < num) (hle : beg + num ≤ k.source.size)
    (hmoved : (k.transfer st.transfers).isMoved) (posOut : Nat)
    (hmechanism : st.canHandleSparse = false →
      st.useCopyFileRange = true ∨ (st.useSendfile = true ∧ posOut = pos + num)) :
    Inv k (pos + num) { st with
      transfers := st.transfers + 1
      dst := writeAt st.dst beg (slice k.source.content beg num)
      posOut := posOut
      nextBeg := st.nextBeg + num
      srcpos := st.srcpos + num } := by
  have hbeg := he.le
  have hlt := he.lt
  refine Inv.of_pos (by omega) ?_ (by omega) (he.write h hle)
    ⟨st.transfers, Nat.lt_succ_self _, hmoved⟩ (fun hs _ => h.nextLen hs (by omega))
    (fun hs _ => hmechanism hs)
  show st.srcpos + num = _
  rw [h.srcpos]
  omega

/-- `copy_file_range` moves bytes of the extent, or is given up where it may be. -/
theorem copyFileRange_inv {pos beg len : Nat} {st st' : CopyState}
    (hfree : MayGiveUp k pos st)
    (h : Inv k pos st) (he : Extent k pos st beg len) (huse : st.useCopyFileRange = true)
    (hn : copyFileRange k st = .again st') : ∃ pos', Inv k pos' st' := by
  have hgiveUp : ∀ e, (fallbackErrno e → (k.transfer st.transfers).isFallback) →
      copyFileRangeFailed e { st with transfers := st.transfers + 1 } = .again st' →
      ∃ pos', Inv k pos' st' := by
    intro e hf hn
    obtain ⟨he', flags, rfl⟩ := copyFileRangeFailed_again hn
    exact ⟨pos, h.giveUp (hfree (hf he')) flags false st.useSendfile⟩
  unfold copyFileRange at hn
  rw [he.beg_toNat, he.len_toNat] at hn
  cases ht : k.transfer st.transfers with
  | moved n =>
      obtain ⟨hpos, _, hle⟩ := Kernel.count_bounds he.lt he.lenPos n
      simp only [ht, Next.again.injEq] at hn
      subst hn
      exact ⟨_, h.advance he hpos hle (by rw [ht]; trivial) st.posOut fun _ => Or.inl huse⟩
  | errno e =>
      simp only [ht] at hn
      exact hgiveUp e (fun hf => by rw [ht]; exact hf) hn
  | writeFailed n w e =>
      simp only [ht] at hn
      exact hgiveUp e (fun hf => by rw [ht]; exact hf) hn

/-- The same of `sendfile`, once the output offset is at the extent. -/
theorem sendfileHere_inv {pos beg len : Nat} {st st' : CopyState}
    (hfree : MayGiveUp k pos st)
    (h : Inv k pos st) (he : Extent k pos st beg len) (huse : st.useSendfile = true)
    (hout : st.posOut = beg) (hn : sendfileHere k st = .again st') : ∃ pos', Inv k pos' st' := by
  have hgiveUp : ∀ e, (fallbackErrno e → (k.transfer st.transfers).isFallback) →
      sendfileFailed e { st with transfers := st.transfers + 1 } = .again st' →
      ∃ pos', Inv k pos' st' := by
    intro e hf hn
    obtain ⟨he', flags, rfl⟩ := sendfileFailed_again hn
    exact ⟨pos, h.giveUp (hfree (hf he')) flags st.useCopyFileRange false⟩
  unfold sendfileHere at hn
  rw [he.beg_toNat, he.len_toNat] at hn
  cases ht : k.transfer st.transfers with
  | moved n =>
      obtain ⟨hpos, _, hle⟩ := Kernel.count_bounds he.lt he.lenPos n
      simp only [ht, Next.again.injEq] at hn
      subst hn
      rw [hout]
      exact ⟨_, h.advance he hpos hle (by rw [ht]; trivial) (beg + _) fun hs =>
        Or.inr ⟨huse, by rw [he.eq_pos hs]⟩⟩
  | errno e =>
      simp only [ht] at hn
      exact hgiveUp e (fun hf => by rw [ht]; exact hf) hn
  | writeFailed n w e =>
      simp only [ht] at hn
      exact hgiveUp e (fun hf => by rw [ht]; exact hf) hn

theorem seekIn_eq (hk : ∀ n, k.seekFault n = none) (off : Int) (st : CopyState) :
    seekIn k off st = (.ok (), { st with seeks := st.seeks + 1, posIn := off.toNat }) := by
  simp only [seekIn, hk]

theorem seekOut_eq (hk : ∀ n, k.seekFault n = none) (off : Int) (st : CopyState) :
    seekOut k off st = (.ok (), { st with seeks := st.seeks + 1, posOut := off.toNat }) := by
  simp only [seekOut, hk]

/-- Neither the offset of the output, when a hole comes first, nor the number of
seeks matters to the invariant. -/
theorem Inv.seekOut {pos : Nat} {st : CopyState} (h : Inv k pos st) (hne : st.nextBeg ≠ 0)
    (hs : st.canHandleSparse = true) (posOut seeks : Nat) :
    Inv k pos { st with posOut := posOut, seeks := seeks } where
  srcpos := h.srcpos
  le := h.le
  content := h.content
  moved := h.moved
  posOut := fun _ hz => absurd hz hne
  extent := fun hz hlt => by
    obtain ⟨beg, len, he⟩ := h.extent hz hlt
    exact ⟨beg, len, he.nextBeg, he.nextLen, he.lenPos, he.le, he.lt, he.gap, he.within⟩
  nextLen := h.nextLen
  posIn := h.posIn
  mechanism := fun hs' => absurd (hs.symm.trans hs') (by simp)

/-- At an extent that is not skipped to the output offset is right as it is. -/
theorem Inv.posOut_eq {pos beg len : Nat} {st : CopyState} (h : Inv k pos st)
    (he : Extent k pos st beg len) (huse : st.useCopyFileRange = false)
    (hskip : ¬ (st.canHandleSparse = true ∧ st.nextBeg ≠ 0)) : st.posOut = beg := by
  have hbeg := he.nextBeg
  have hle := he.le
  have hlt := he.lt
  by_cases hzero : st.nextBeg = 0
  · rw [h.posOut (by omega) hzero]
    omega
  · have hs : st.canHandleSparse = false := by simpa using fun hs => hskip ⟨hs, hzero⟩
    have hpos := he.eq_pos hs
    rcases h.mechanism hs (by omega) (by omega) with hcfr | ⟨_, hout⟩
    · rw [huse] at hcfr
      cases hcfr
    · rw [hout, hpos]

theorem sendfile_inv {pos beg len : Nat} {st st' : CopyState} (hseeks : ∀ n, k.seekFault n = none)
    (hfree : MayGiveUp k pos st) (h : Inv k pos st) (he : Extent k pos st beg len)
    (hcfr : st.useCopyFileRange = false) (huse : st.useSendfile = true)
    (hn : sendfile k st = .again st') : ∃ pos', Inv k pos' st' := by
  unfold sendfile at hn
  by_cases hskip : st.canHandleSparse = true ∧ st.nextBeg ≠ 0
  · rw [if_pos hskip, seekOut_eq hseeks, he.beg_toNat] at hn
    have he' : Extent k pos { st with seeks := st.seeks + 1, posOut := beg } beg len :=
      ⟨he.nextBeg, he.nextLen, he.lenPos, he.le, he.lt, he.gap, he.within⟩
    have hfree' : MayGiveUp k pos { st with seeks := st.seeks + 1, posOut := beg } := hfree
    exact sendfileHere_inv hfree' (h.seekOut hskip.2 hskip.1 beg (st.seeks + 1)) he' huse rfl hn
  · rw [if_neg hskip] at hn
    exact sendfileHere_inv hfree h he huse (h.posOut_eq he hcfr hskip) hn

/-! ## `read` and `write_all` -/

/-- The state of the inner loop after `w` bytes of the extent. -/
structure Inner (k : Kernel) (pos beg len w : Nat) (st : CopyState) : Prop where
  srcpos : st.srcpos = pos
  posIn : st.posIn = beg + w
  posOut : st.posOut = beg + w
  nextLen : st.nextLen = (len : Int) - w
  wle : w ≤ len
  within : beg + len ≤ k.source.size
  content : Content k st.canHandleSparse (beg + w) st.dst
  moved : 0 < w → ∃ i < st.transfers, (k.transfer i).isMoved
  dense : st.canHandleSparse = false → beg = pos ∧ beg + len = k.source.size

/-- The inner loop ends with the whole extent, and never at an early end of file. -/
theorem readWriteLoop_inv {pos beg len : Nat} {num : Int} {st' : CopyState} :
    ∀ (fuel w : Nat) (st : CopyState), Inner k pos beg len w st →
      readWriteLoop k fuel w st = some (.ok num, st') →
      num = len ∧ Inner k pos beg len len st' := by
  intro fuel
  induction fuel with
  | zero => intro w st _ h; cases h
  | succ fuel ih =>
      intro w st hi h
      have hnl := hi.nextLen
      have hwle := hi.wle
      have hwithin := hi.within
      rw [readWriteLoop] at h
      by_cases hmore : st.nextLen > 0
      · rw [if_pos hmore] at h
        have hposIn : st.posIn < k.source.size := by
          rw [hi.posIn]
          omega
        have hslice : 0 < min st.nextLen.toNat defaultBufSize := by
          rw [defaultBufSize]
          omega
        cases ht : k.transfer st.transfers with
        | moved n =>
            obtain ⟨hpos, hle, hfile⟩ := Kernel.count_bounds hposIn hslice n
            simp only [ht, Nat.ne_of_gt hpos, if_false] at h
            have hnew : Inner k pos beg len
                (w + k.count st.posIn (min st.nextLen.toNat defaultBufSize) n)
                { st with
                  transfers := st.transfers + 1
                  dst := writeAt st.dst st.posOut (slice k.source.content st.posIn
                    (k.count st.posIn (min st.nextLen.toNat defaultBufSize) n))
                  posIn := st.posIn + k.count st.posIn (min st.nextLen.toNat defaultBufSize) n
                  posOut := st.posOut + k.count st.posIn (min st.nextLen.toNat defaultBufSize) n
                  nextLen := st.nextLen -
                    k.count st.posIn (min st.nextLen.toNat defaultBufSize) n } := by
              generalize k.count st.posIn (min st.nextLen.toNat defaultBufSize) n = c at *
              have hin := hi.posIn
              have hout := hi.posOut
              refine ⟨hi.srcpos, ?_, ?_, ?_, by omega, hwithin, ?_, fun _ =>
                ⟨st.transfers, Nat.lt_succ_self _, by rw [ht]; trivial⟩, hi.dense⟩
              · show st.posIn + c = _
                omega
              · show st.posOut + c = _
                omega
              · show st.nextLen - c = _
                omega
              · rw [hin, hout, ← Nat.add_assoc]
                exact hi.content.write (by omega)
            refine ih _ _ hnew ?_
            rw [← h]
            congr 1
        | errno e =>
            simp only [ht] at h
            split at h
            · exact ih w { st with transfers := st.transfers + 1 } ⟨hi.srcpos, hi.posIn, hi.posOut, hnl, hwle, hwithin, hi.content,
                fun hw => by
                  obtain ⟨i, hlt, hm⟩ := hi.moved hw
                  exact ⟨i, Nat.lt_succ_of_lt hlt, hm⟩, hi.dense⟩ h
            · cases h
        | writeFailed n w' e =>
            simp only [ht] at h
            cases h
      · rw [if_neg hmore] at h
        cases h
        have hw : w = len := by omega
        subst hw
        exact ⟨rfl, hi⟩

/-- Both descriptors are at the extent when the inner loop starts. -/
theorem seekBoth_inner {pos beg len : Nat} {st st' : CopyState}
    (hseeks : ∀ n, k.seekFault n = none)
    (h : Inv k pos st) (he : Extent k pos st beg len) (hcfr : st.useCopyFileRange = false)
    (hsf : st.useSendfile = false) (hn : seekBoth k st = (.ok (), st')) :
    Inner k pos beg len 0 st' := by
  have hcontent := h.content.skip he.le he.gap
  have hnextLen : st.nextLen = (len : Int) - (0 : Nat) := by
    rw [he.nextLen]
    omega
  have hbeg := he.nextBeg
  unfold seekBoth at hn
  by_cases hs : st.canHandleSparse = true
  · have hdense : ¬ st.canHandleSparse = false := by simp [hs]
    rw [if_pos hs, seekIn_eq hseeks, he.beg_toNat] at hn
    dsimp only at hn
    by_cases hzero : st.nextBeg = 0
    · rw [if_neg (not_not.mpr hzero)] at hn
      cases hn
      have hout := h.posOut_eq he hcfr fun hskip => hskip.2 hzero
      exact ⟨h.srcpos, rfl, hout, hnextLen, Nat.zero_le _, he.within hs, hcontent,
        fun hw => absurd hw (Nat.lt_irrefl 0), fun hs' => absurd hs' hdense⟩
    · rw [if_pos hzero, seekOut_eq hseeks, he.beg_toNat] at hn
      cases hn
      exact ⟨h.srcpos, rfl, rfl, hnextLen, Nat.zero_le _, he.within hs, hcontent,
        fun hw => absurd hw (Nat.lt_irrefl 0), fun hs' => absurd hs' hdense⟩
  · rw [if_neg hs] at hn
    cases hn
    have hdense : st.canHandleSparse = false := by simpa using hs
    have hpos := he.eq_pos hdense
    have hlt := he.lt
    have hzero : pos = 0 := by
      rcases Nat.eq_zero_or_pos pos with hz | hp
      · exact hz
      · rcases h.mechanism hdense hp (by omega) with hm | ⟨hm, _⟩
        · rw [hcfr] at hm
          cases hm
        · rw [hsf] at hm
          cases hm
    have hlen : len = k.source.size := by
      have h1 := h.nextLen hdense (by omega)
      rw [he.nextLen] at h1
      omega
    have hout := h.posOut_eq he hcfr fun hskip => hs hskip.1
    have hin := h.posIn hdense hzero
    exact ⟨h.srcpos, by omega, by omega, hnextLen, Nat.zero_le _, by omega, hcontent,
      fun hw => absurd hw (Nat.lt_irrefl 0), fun _ => ⟨hpos, by omega⟩⟩

theorem readWrite_inv {pos beg len fuel : Nat} {st st' : CopyState}
    (hseeks : ∀ n, k.seekFault n = none)
    (h : Inv k pos st) (he : Extent k pos st beg len) (hcfr : st.useCopyFileRange = false)
    (hsf : st.useSendfile = false) (hn : readWrite k fuel st = some (.again st')) :
    ∃ pos', Inv k pos' st' := by
  unfold readWrite at hn
  split at hn
  · cases hn
  · rename_i st1 hseek
    have hinner := seekBoth_inner hseeks h he hcfr hsf hseek
    split at hn
    · cases hn
    · cases hn
    · rename_i num st2 hloop
      obtain ⟨rfl, hi⟩ := readWriteLoop_inv fuel 0 st1 hinner hloop
      cases hn
      have hle := he.le
      have hpos := he.lenPos
      have hwithin := hi.within
      have hcontent : Content k st2.canHandleSparse (pos + len) st2.dst := by
        refine hi.content.anti (by omega) ?_
        cases hs : st2.canHandleSparse with
        | true => exact Or.inl rfl
        | false => exact Or.inr (by rw [(hi.dense hs).1])
      have hdense : st2.canHandleSparse = false → ¬ pos + len < k.source.size := by
        intro hs
        have h1 := hi.dense hs
        omega
      refine ⟨pos + len, Inv.of_pos (by omega) ?_ (by omega) hcontent (hi.moved hpos)
        (fun hs hlt => absurd hlt (hdense hs)) (fun hs hlt => absurd hlt (hdense hs))⟩
      show st2.srcpos + len = _
      rw [hi.srcpos]
      omega

/-! ## The whole loop -/

theorem round_inv {pos fuel : Nat} {st st' : CopyState} (hseeks : ∀ n, k.seekFault n = none)
    (hend : k.seekEnd = k.source.size) (h : Inv k pos st)
    (hfree : ∀ st₁, Inv k pos st₁ → st₁.canHandleSparse = st.canHandleSparse →
      MayGiveUp k pos st₁)
    (hlt : pos < k.source.size) (hn : round k fuel st = some (.again st')) :
    ∃ pos', Inv k pos' st' := by
  unfold round at hn
  split at hn
  · cases hn
  · rename_i st1 hext
    obtain ⟨hs, h1, beg, len, he⟩ := nextExtent_inv hend h hlt hext
    have hlen := he.nextLen
    have hpos := he.lenPos
    rw [if_neg (by omega)] at hn
    by_cases hcfr : st1.useCopyFileRange = true
    · rw [if_pos hcfr] at hn
      exact copyFileRange_inv (hfree st1 h1 hs) h1 he hcfr (Option.some.inj hn)
    · rw [if_neg hcfr] at hn
      by_cases hsf : st1.useSendfile = true
      · rw [if_pos hsf] at hn
        exact sendfile_inv hseeks (hfree st1 h1 hs) h1 he (by simpa using hcfr) hsf
          (Option.some.inj hn)
      · rw [if_neg hsf] at hn
        exact readWrite_inv hseeks h1 he (by simpa using hcfr) (by simpa using hsf) hn

theorem Kernel.Regular.mayGiveUp {pos : Nat} {st : CopyState} (hk : k.Regular)
    (h : Inv k pos st) : MayGiveUp k pos st :=
  fun hf => .inl (h.pos_eq_zero hk hf)

theorem copyLoop_inv (hk : k.Regular) :
    ∀ (fuel pos : Nat) (st st' : CopyState) (n : Int), Inv k pos st →
      copyLoop k fuel st = some (.ok n, st') →
      n = k.source.size ∧ st'.dst = k.source.content := by
  intro fuel
  induction fuel with
  | zero => intro pos st st' n _ h; cases h
  | succ fuel ih =>
      intro pos st st' n h hn
      have hle := h.le
      have hsrcpos := h.srcpos
      have hunchanged := hk.unchanged
      rw [copyLoop] at hn
      by_cases hlt : st.srcpos < k.len
      · rw [if_pos hlt] at hn
        split at hn
        · cases hn
        · rename_i st1 hround
          obtain ⟨pos', h'⟩ := round_inv hk.seeks hk.seekEnd h (fun _ h₁ _ => hk.mayGiveUp h₁) (by omega) hround
          exact ih pos' st1 st' n h' hn
        · cases hn
      · rw [if_neg hlt] at hn
        cases hn
        have hpos : pos = k.source.size := by omega
        subst hpos
        exact ⟨hsrcpos, h.content.eq⟩

/-- With documented answers a seek fails only where it is not supported, or finds
nothing. -/
theorem seekExtent_eq (hk : ∀ n, k.seekFault n = none) (find : Nat → Option Nat) (off : Nat)
    (st : CopyState) :
    seekExtent k find off st =
      if k.seekSupported = true then
        match find off with
        | some p => (.ok p, { st with seeks := st.seeks + 1, posIn := p })
        | none => (.error .enxio, { st with seeks := st.seeks + 1 })
      else (.error .einval, { st with seeks := st.seeks + 1 }) := by
  have hoff : ¬ (off : Int) < 0 := by omega
  simp only [seekExtent, hk, hoff, if_false, Int.toNat_natCast]
  cases hs : k.seekSupported with
  | true => cases find off <;> rfl
  | false => rfl

/-- The state at the head of the loop when holes are not told apart. -/
def denseStart (k : Kernel) (flags : Flags) (dst : List UInt8) (seeks : Nat) : CopyState :=
  { opened flags false dst with
    seeks := seeks, nextBeg := 0, nextEnd := k.len, nextLen := (k.len : Int) - 0 }

/-- The same with the first extent `[beg, stop)`. -/
def sparseStart (flags : Flags) (dst : List UInt8) (beg stop : Nat) : CopyState :=
  { opened flags true dst with
    seeks := 2, posIn := stop, nextBeg := beg, nextEnd := stop, nextLen := (stop : Int) - beg }

/-- Holes are told apart: the seeks are supported and there is data to find. -/
structure FirstData (k : Kernel) (sparse : Bool) (beg stop : Nat) : Prop where
  sparse : sparse = true
  supported : k.seekSupported = true
  data : k.seekData 0 = some beg
  hole : k.seekHole beg = some stop

theorem firstExtent_cases (hk : ∀ n, k.seekFault n = none) (flags : Flags) (sparse : Bool)
    (dst : List UInt8) :
    (∃ n, firstExtent k (opened flags sparse dst) = denseStart k flags dst n ∧
      ∀ beg stop, ¬ FirstData k sparse beg stop) ∨
    ∃ beg stop, firstExtent k (opened flags sparse dst) = sparseStart flags dst beg stop ∧
      FirstData k sparse beg stop := by
  cases sparse with
  | false => exact .inl ⟨0, rfl, fun _ _ h => nomatch h.sparse⟩
  | true =>
      have hdata := seekExtent_eq hk k.seekData 0 (opened flags true dst)
      have hfailed (e : Errno) (he : seekExtent k k.seekData ((0 : Nat) : Int)
          (opened flags true dst) = (.error e, { opened flags true dst with seeks := 1 })) :
          firstExtent k (opened flags true dst) = denseStart k flags dst 1 := by
        have hbeg : firstBeg k (opened flags true dst) =
            { opened flags false dst with seeks := 1, nextBeg := 0 } := by
          unfold firstBeg
          rw [if_pos (by rfl), show (opened flags true dst).srcpos = ((0 : Nat) : Int) from rfl, he]
          rfl
        unfold firstExtent
        rw [hbeg]
        rfl
      by_cases hsup : k.seekSupported = true
      · rw [if_pos hsup] at hdata
        cases hbeg : k.seekData 0 with
        | none =>
            rw [hbeg] at hdata
            refine .inl ⟨1, hfailed _ hdata, fun beg stop h => ?_⟩
            rw [h.data] at hbeg
            cases hbeg
        | some beg =>
            obtain ⟨_, hlt, hbyte, _⟩ := k.seekData_eq_some hbeg
            obtain ⟨stop, hstop, _, _⟩ := k.seekHole_of_data hlt hbyte
            rw [hbeg] at hdata
            have hhole := seekExtent_eq hk k.seekHole beg
              { opened flags true dst with seeks := 1, posIn := beg, nextBeg := beg }
            rw [if_pos hsup, hstop] at hhole
            refine .inr ⟨beg, stop, ?_, rfl, hsup, hbeg, hstop⟩
            have hfirst : firstBeg k (opened flags true dst) =
                { opened flags true dst with seeks := 1, posIn := beg, nextBeg := beg } := by
              unfold firstBeg
              rw [if_pos (by rfl), show (opened flags true dst).srcpos = ((0 : Nat) : Int) from rfl,
                hdata]
              rfl
            unfold firstExtent firstEnd
            rw [hfirst, if_pos (by rfl)]
            dsimp only
            rw [hhole]
            rfl
      · rw [if_neg hsup] at hdata
        exact .inl ⟨1, hfailed _ hdata, fun _ _ h => hsup h.supported⟩

/-- The state from which everything is copied in one stretch. -/
theorem Inv.dense {st : CopyState} (hs : st.canHandleSparse = false) (hsrcpos : st.srcpos = 0)
    (hbeg : st.nextBeg = 0) (hlen : st.nextLen = k.source.size) (hin : st.posIn = 0)
    (hout : st.posOut = 0) (hdst : st.dst.length = k.source.size ∨ st.dst.length = 0) :
    Inv k 0 st where
  srcpos := hsrcpos
  le := Nat.zero_le _
  content := ⟨hdst.imp id fun h => ⟨hs, h⟩, fun p hp => by omega, fun hs' => by
    rw [hs] at hs'
    cases hs'⟩
  moved := fun h => absurd h (Nat.lt_irrefl 0)
  posOut := fun _ _ => hout
  extent := fun _ hlt => ⟨0, k.source.size, hbeg, hlen, hlt, Nat.le_refl 0, hlt,
    fun r _ h => by omega, fun _ => by omega⟩
  nextLen := fun _ _ => hlen
  posIn := fun _ _ => hin
  mechanism := fun _ h => absurd h (Nat.lt_irrefl 0)

/-- A file of zeros agrees with the source in the holes. -/
theorem Content.zeros (k : Kernel) :
    Content k true 0 (List.replicate k.source.size 0) where
  length := Or.inl List.length_replicate
  below := fun p hp => by omega
  holes := fun _ p hdata => by
    rw [List.getElem?_replicate]
    by_cases hp : p < k.source.size
    · rw [if_pos hp, k.source.hole_zero p hp hdata]
    · rw [if_neg hp, List.getElem?_eq_none (Nat.le_of_not_lt hp)]

/-- The state at the first extent, where nothing but zeros has been written. -/
theorem sparseStart_inv {sparse : Bool} {beg stop : Nat} (flags : Flags)
    (hend : k.seekEnd = k.source.size) (hfirst : FirstData k sparse beg stop) :
    Inv k 0 (sparseStart flags (List.replicate k.source.size 0) beg stop) := by
  obtain ⟨_, hlt, hbyte, hgap⟩ := k.seekData_eq_some hfirst.data
  obtain ⟨stop', hstop, hlt1, hle1⟩ := k.seekHole_of_data hlt hbyte
  rw [hend] at hlt hle1
  obtain rfl : stop = stop' := Option.some.inj (hfirst.hole.symm.trans hstop)
  have hlen : (stop : Int) - beg = ((stop - beg : Nat) : Int) := by omega
  have hext : Extent k 0 (sparseStart flags (List.replicate k.source.size 0) beg stop) beg
      (stop - beg) :=
    ⟨rfl, hlen, by omega, Nat.zero_le _, hlt, fun r _ h => ⟨rfl, hgap r (Nat.zero_le _) h⟩,
      fun _ => by omega⟩
  exact
    { srcpos := rfl
      le := Nat.zero_le _
      content := Content.zeros k
      moved := fun h => absurd h (Nat.lt_irrefl 0)
      posOut := fun _ _ => rfl
      extent := fun _ _ => ⟨beg, stop - beg, hext⟩
      nextLen := fun h => nomatch h
      posIn := fun h => nomatch h
      mechanism := fun h => nomatch h }

theorem firstExtent_inv (hk : k.Regular) (flags : Flags) {sparse : Bool} {dst : List UInt8}
    (hdst : (sparse = true ∧ dst = List.replicate k.source.size 0) ∨ (sparse = false ∧ dst = [])) :
    Inv k 0 (firstExtent k (opened flags sparse dst)) := by
  have hunchanged := hk.unchanged
  rcases firstExtent_cases hk.seeks flags sparse dst with ⟨n, heq, _⟩ | ⟨beg, stop, heq, hfirst⟩
  · rw [heq]
    refine Inv.dense rfl rfl rfl ?_ rfl rfl ?_
    · show (k.len : Int) - 0 = _
      omega
    · rcases hdst with ⟨_, rfl⟩ | ⟨_, rfl⟩
      · exact Or.inl List.length_replicate
      · exact Or.inr rfl
  · obtain ⟨_, rfl⟩ := hdst.resolve_right fun h => nomatch hfirst.sparse.symm.trans h.1
    rw [heq]
    exact sparseStart_inv flags hk.seekEnd hfirst

theorem orFault_bind {α : Type} {call : CopyCall} {fault : Option Errno}
    {f : Unit → Except CopyError α} {a : α} (h : (orFault call fault >>= f) = .ok a) :
    f () = .ok a := by
  cases fault with
  | none => exact h
  | some e => cases h

/-- The destination is empty, or all zeros, when the loop starts. -/
theorem prepare_dst (hk : k.Regular) {sparse : Bool} {dst : List UInt8}
    (h : prepare k = .ok (sparse, dst)) :
    (sparse = true ∧ dst = List.replicate k.source.size 0) ∨ (sparse = false ∧ dst = []) := by
  rw [prepare, if_pos hk.destIsFile] at h
  have htruncate := orFault_bind (orFault_bind (orFault_bind h))
  split at htruncate
  · cases htruncate
    rw [hk.unchanged]
    exact Or.inl ⟨rfl, rfl⟩
  · split at htruncate
    · cases htruncate
      exact Or.inr ⟨rfl, rfl⟩
    · cases htruncate

theorem copy_returned (hk : k.Regular) {flags : Flags} {fuel : Nat} {c : Copied} {n : Int}
    (h : copy k fuel flags = some c) (hok : c.result = .ok n) :
    c.dst = some k.source.content ∧ n = k.source.content.length := by
  unfold copy at h
  split at h
  · cases h
    cases hok
  · split at h
    · cases h
      cases hok
    · rename_i sparse dst hprepare
      have hinv := firstExtent_inv hk flags (prepare_dst hk hprepare)
      split at h
      · cases h
      · rename_i result st hloop
        cases h
        cases hok
        obtain ⟨hn, hdst⟩ := copyLoop_inv hk fuel 0 _ st n hinv hloop
        exact ⟨congrArg some hdst, hn⟩

/-- A copy to a regular file that returns has copied the source: every byte, the
length, and the count are those of the source, whatever the extents, the
mechanism, the counts and the state of the globals. -/
theorem copy_faithful (k : Kernel) (hk : k.Regular) (flags : Flags) (fuel : Nat) (c : Copied)
    (n : Int) (h : copy k fuel flags = some c) (hok : c.result = .ok n) :
    c.dst = some k.source.content ∧ n = k.source.content.length := copy_returned hk h hok

/-- Two bytes behind a hole, on a kernel without `copy_file_range` that moves one
byte at a time. -/
def sampleKernel : Kernel :=
  { source := {
      content := [0, 0, 7, 8]
      data := fun p => decide (2 ≤ p)
      hole_zero := by decide }
    len := 4
    seekSupported := true
    seekByStat := false
    seekByStat_data := nofun
    setup := {
      openFrom := none, sourceIsFile := true, openTo := none, destIsFile := true
      setPermissions := none, isRoot := true, fchown := none, aclCopyFd := none, ftruncate := none }
    transfer := fun n => if n = 0 then .errno .enosys else .moved 1
    seekFault := fun _ => none }

theorem sampleKernel_regular : sampleKernel.Regular where
  unchanged := rfl
  destIsFile := rfl
  seeks := fun _ => rfl
  fallbackFirst := fun i j hij _ hf => by
    have hj : j ≠ 0 := by omega
    simp [sampleKernel, hj, Transfer.isFallback] at hf

theorem copy_sampleKernel :
    ∃ c, copy sampleKernel 10 ⟨true, true⟩ = some c ∧ c.result = .ok 4 ∧
      c.dst = some [0, 0, 7, 8] := by
  refine ⟨{ result := .ok 4, dst := some [0, 0, 7, 8], flags := ⟨false, true⟩ }, rfl, rfl, ?_⟩
  exact (copy_faithful sampleKernel sampleKernel_regular ⟨true, true⟩ 10 _ 4 rfl rfl).1

end File
end DracutInstall

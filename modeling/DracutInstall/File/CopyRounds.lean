/-
What one round of the copy loop does when the transfers move bytes.

Where holes are skipped a round moves some bytes of the next extent, whatever
the mechanism, or ends the copy because there is no data behind `srcpos`.  Where
they are not, `copy_file_range` and `sendfile` move some bytes from `srcpos`, and
`read` and `write_all` everything that is left to read.
-/
import DracutInstall.File.CopyFidelity

namespace DracutInstall
namespace File

open Rust SparseFile

variable {k : Kernel}

/-- From the `i`-th transfer on every transfer moves bytes. -/
def Kernel.MovesFrom (k : Kernel) (i : Nat) : Prop := ∀ j, i ≤ j → (k.transfer j).isMoved

theorem Kernel.MovesFrom.mono {i j : Nat} (h : k.MovesFrom i) (hij : i ≤ j) : k.MovesFrom j :=
  fun n hn => h n (Nat.le_trans hij hn)

theorem Transfer.exists_of_isMoved {t : Transfer} (h : t.isMoved) : ∃ n, t = .moved n := by
  cases t with
  | moved n => exact ⟨n, rfl⟩
  | errno e => exact h.elim
  | writeFailed n w e => exact h.elim

theorem Kernel.MovesFrom.here {i : Nat} (h : k.MovesFrom i) : ∃ n, k.transfer i = .moved n :=
  Transfer.exists_of_isMoved (h i (Nat.le_refl i))

theorem Kernel.count_zero {off : Nat} (hoff : k.source.size ≤ off) (len n : Nat) :
    k.count off len n = 0 := by
  unfold Kernel.count
  omega

/-! ## The three mechanisms -/

theorem copyFileRange_moved (st : CopyState) {n : Nat}
    (ht : k.transfer st.transfers = .moved n) :
    copyFileRange k st = .again { st with
      transfers := st.transfers + 1
      dst := writeAt st.dst st.nextBeg.toNat (slice k.source.content st.nextBeg.toNat
        (k.count st.nextBeg.toNat st.nextLen.toNat n))
      nextBeg := st.nextBeg + k.count st.nextBeg.toNat st.nextLen.toNat n
      srcpos := st.srcpos + k.count st.nextBeg.toNat st.nextLen.toNat n } := by
  unfold copyFileRange
  rw [ht]

theorem sendfileHere_moved (st : CopyState) {n : Nat}
    (ht : k.transfer st.transfers = .moved n) :
    sendfileHere k st = .again { st with
      transfers := st.transfers + 1
      dst := writeAt st.dst st.posOut (slice k.source.content st.nextBeg.toNat
        (k.count st.nextBeg.toNat st.nextLen.toNat n))
      posOut := st.posOut + k.count st.nextBeg.toNat st.nextLen.toNat n
      nextBeg := st.nextBeg + k.count st.nextBeg.toNat st.nextLen.toNat n
      srcpos := st.srcpos + k.count st.nextBeg.toNat st.nextLen.toNat n } := by
  unfold sendfileHere
  rw [ht]

/-- What the inner loop leaves alone, and where it has got after `c` bytes. -/
structure ReadOn (c : Nat) (st st' : CopyState) : Prop where
  canHandleSparse : st'.canHandleSparse = st.canHandleSparse
  useCopyFileRange : st'.useCopyFileRange = st.useCopyFileRange
  useSendfile : st'.useSendfile = st.useSendfile
  nextBeg : st'.nextBeg = st.nextBeg
  posIn : st'.posIn = st.posIn + c
  nextLen : st'.nextLen = st.nextLen - c
  transfers : st.transfers ≤ st'.transfers

theorem ReadOn.refl (st : CopyState) : ReadOn 0 st st where
  canHandleSparse := rfl
  useCopyFileRange := rfl
  useSendfile := rfl
  nextBeg := rfl
  posIn := rfl
  nextLen := (Int.sub_zero _).symm
  transfers := Nat.le_refl _

/-- The inner loop of `read` and `write_all` goes on to the end of the extent or of
the file.  At the end of the file `srcpos` is moved in the loop already. -/
theorem readWriteLoop_moved :
    ∀ (fuel : Nat) (written : Int) (m avail : Nat) (st : CopyState), st.nextLen = m →
      avail = k.source.size - st.posIn → k.MovesFrom st.transfers →
      (fuel ≤ min m avail ∧ readWriteLoop k fuel written st = none) ∨
      ∃ st', readWriteLoop k fuel written st = some (.ok (written + (min m avail : Nat)), st') ∧
        ReadOn (min m avail) st st' ∧
        st'.srcpos = if m ≤ avail then st.srcpos
          else st.srcpos + (written + (min m avail : Nat)) := by
  intro fuel
  induction fuel with
  | zero => exact fun _ _ _ _ _ _ _ => .inl ⟨Nat.zero_le _, rfl⟩
  | succ fuel ih =>
      intro written m avail st hlen havail hmoves
      obtain ⟨n, ht⟩ := hmoves.here
      rw [readWriteLoop]
      rcases Nat.eq_zero_or_pos m with hm | hm
      · -- the extent is done
        subst hm
        rw [if_neg (by omega), Nat.zero_min]
        refine .inr ⟨st, ?_, .refl st, (if_pos (Nat.zero_le _)).symm⟩
        rw [Int.natCast_zero, Int.add_zero]
      · rw [if_pos (by omega)]
        simp only [ht]
        rcases Nat.eq_zero_or_pos avail with hend | hrest
        · -- the file ends here
          rw [k.count_zero (by omega), if_pos rfl, hend, Nat.min_zero]
          refine .inr ⟨{ st with transfers := st.transfers + 1, srcpos := st.srcpos + written },
            ?_, ⟨rfl, rfl, rfl, rfl, rfl, (Int.sub_zero _).symm, Nat.le_succ _⟩, ?_⟩
          · rw [Int.natCast_zero, Int.add_zero]
          · rw [if_neg (by omega), Int.natCast_zero, Int.add_zero]
        · have hslice : 0 < min st.nextLen.toNat defaultBufSize := by
            rw [defaultBufSize]
            omega
          obtain ⟨hpos, hle, hfile⟩ := k.count_bounds (show st.posIn < k.source.size by omega) hslice n
          rw [if_neg (Nat.ne_of_gt hpos)]
          generalize k.count st.posIn (min st.nextLen.toNat defaultBufSize) n = c at *
          have hcm : c ≤ m := by omega
          have hca : c ≤ avail := by omega
          have hmin : min (m - c) (avail - c) = min m avail - c := by omega
          rcases ih (written + c) (m - c) (avail - c) { st with
              transfers := st.transfers + 1
              dst := writeAt st.dst st.posOut (slice k.source.content st.posIn c)
              posIn := st.posIn + c
              posOut := st.posOut + c
              nextLen := st.nextLen - c }
            (by show st.nextLen - c = _; omega) (by show _ = k.source.size - (st.posIn + c); omega)
            (hmoves.mono (Nat.le_succ _)) with ⟨hfuel, hnone⟩ | ⟨st', hsome, hread, hsrcpos⟩
          · exact .inl ⟨by omega, hnone⟩
          · have hsum : written + c + ((min (m - c) (avail - c) : Nat) : Int) =
                written + (min m avail : Nat) := by omega
            refine .inr ⟨st', ?_, ?_, ?_⟩
            · rw [hsome, hsum]
            · refine ⟨hread.canHandleSparse, hread.useCopyFileRange, hread.useSendfile, hread.nextBeg, ?_, ?_,
                Nat.le_trans (Nat.le_succ _) hread.transfers⟩
              · rw [hread.posIn]
                show st.posIn + c + _ = _
                omega
              · rw [hread.nextLen]
                show st.nextLen - c - _ = _
                omega
            · rw [hsrcpos, hsum]
              by_cases hma : m ≤ avail
              · rw [if_pos hma, if_pos (by omega)]
              · rw [if_neg hma, if_neg (by omega)]

/-- The rest of a round, with the next extent known. -/
def moveExtent (k : Kernel) (fuel : Nat) (st : CopyState) : Option Next :=
  if st.useCopyFileRange then some (copyFileRange k st)
  else if st.useSendfile then some (sendfile k st)
  else readWrite k fuel st

/-! ## A mechanism in use and given up -/

/-- A round calls `copy_file_range` or `sendfile`. -/
def CopyState.streams (st : CopyState) : Prop :=
  st.useCopyFileRange = true ∨ st.useSendfile = true

/-- What the head of a round finds, and what it leaves alone. -/
structure Looked (k : Kernel) (st st₁ : CopyState) : Prop where
  nextExtent : nextExtent k st = (.ok (), st₁)
  nextLen : 0 < st₁.nextLen
  transfers : st₁.transfers = st.transfers
  useCopyFileRange : st₁.useCopyFileRange = st.useCopyFileRange
  useSendfile : st₁.useSendfile = st.useSendfile

theorem Looked.round_eq {st st₁ : CopyState} (h : Looked k st st₁) (fuel : Nat) :
    round k fuel st = moveExtent k fuel st₁ := by
  have hlen := h.nextLen
  unfold round
  rw [h.nextExtent]
  dsimp only
  rw [if_neg (by omega), moveExtent]

theorem Looked.streams {st st₁ : CopyState} (h : Looked k st st₁) : st₁.streams ↔ st.streams := by
  rw [CopyState.streams, CopyState.streams, h.useCopyFileRange, h.useSendfile]

/-- A mechanism was given up: what else the round has left alone. -/
structure GaveUp (st st' : CopyState) : Prop where
  canHandleSparse : st'.canHandleSparse = st.canHandleSparse
  srcpos : st'.srcpos = st.srcpos
  nextBeg : st'.nextBeg = st.nextBeg
  nextLen : st'.nextLen = st.nextLen
  posIn : st'.posIn = st.posIn
  posOut : st.canHandleSparse = false → st'.posOut = st.posOut
  dst : st'.dst = st.dst
  transfers : st'.transfers = st.transfers + 1
  noCopyFileRange : st'.useCopyFileRange = false
  useSendfile : st.useCopyFileRange = true → st'.useSendfile = st.useSendfile
  noSendfile : st.useCopyFileRange = false → st'.useSendfile = false

theorem sendfile_start (hseeks : ∀ n, k.seekFault n = none) (st : CopyState) :
    ∃ out seeks, sendfile k st = sendfileHere k { st with posOut := out, seeks := seeks } ∧
      (st.canHandleSparse = false → out = st.posOut) := by
  rw [sendfile]
  split
  · rename_i h
    rw [seekOut_eq hseeks]
    exact ⟨_, _, rfl, fun hs => nomatch hs.symm.trans h.1⟩
  · exact ⟨_, _, rfl, fun _ => rfl⟩

/-- A call that does not move bytes either ends the copy or gives the mechanism up. -/
theorem moveExtent_failed {fuel : Nat} {st st' : CopyState} (hseeks : ∀ n, k.seekFault n = none)
    (huse : st.streams) (ht : ¬ (k.transfer st.transfers).isMoved)
    (h : moveExtent k fuel st = some (.again st')) : GaveUp st st' ∧
      (k.transfer st.transfers).isFallback := by
  rw [moveExtent] at h
  by_cases hcfr : st.useCopyFileRange = true
  · have hdone (e : Errno) (h : copyFileRangeFailed e { st with transfers := st.transfers + 1 } =
        .again st') : GaveUp st st' ∧ fallbackErrno e := by
      obtain ⟨he, flags, rfl⟩ := copyFileRangeFailed_again h
      exact ⟨⟨rfl, rfl, rfl, rfl, rfl, fun _ => rfl, rfl, rfl, rfl, fun _ => rfl,
        fun hno => nomatch hno.symm.trans hcfr⟩, he⟩
    rw [if_pos hcfr, Option.some.injEq, copyFileRange] at h
    cases hk : k.transfer st.transfers with
    | moved n => exact absurd (hk ▸ trivial) ht
    | errno e =>
        rw [hk] at h
        exact hdone e h
    | writeFailed n w e =>
        rw [hk] at h
        exact hdone e h
  · have hsf := huse.resolve_left hcfr
    obtain ⟨out, seeks, hstart, hout⟩ := sendfile_start hseeks st
    have hdone (e : Errno) (h : sendfileFailed e { st with
        posOut := out, seeks := seeks, transfers := st.transfers + 1 } = .again st') :
        GaveUp st st' ∧ fallbackErrno e := by
      obtain ⟨he, flags, rfl⟩ := sendfileFailed_again h
      exact ⟨⟨rfl, rfl, rfl, rfl, rfl, hout, rfl, rfl, by simpa using hcfr,
        fun hyes => absurd hyes hcfr, fun _ => rfl⟩, he⟩
    rw [if_neg hcfr, if_pos hsf, Option.some.injEq, hstart, sendfileHere] at h
    cases hk : k.transfer st.transfers with
    | moved n => exact absurd (hk ▸ trivial) ht
    | errno e =>
        simp only [hk] at h
        exact hdone e h
    | writeFailed n w e =>
        simp only [hk] at h
        exact hdone e h

/-! ## Where holes are skipped -/

/-- A call has moved `num` bytes of an extent. -/
structure MovedOn (num : Nat) (st st' : CopyState) : Prop where
  canHandleSparse : st'.canHandleSparse = st.canHandleSparse
  useCopyFileRange : st'.useCopyFileRange = st.useCopyFileRange
  useSendfile : st'.useSendfile = st.useSendfile
  srcpos : st'.srcpos = st.srcpos + num
  nextBeg : st'.nextBeg = st.nextBeg + num
  nextLen : st'.nextLen = st.nextLen
  transfers : st'.transfers = st.transfers + 1

/-- Some bytes of an extent are moved by one call, if the file has any there. -/
theorem moveExtent_streams {beg len n : Nat} {st : CopyState} (hseeks : ∀ n, k.seekFault n = none)
    (huse : st.streams) (ht : k.transfer st.transfers = .moved n) (hbeg : st.nextBeg = beg)
    (hlen : st.nextLen = len) :
    ∃ st', (∀ fuel, moveExtent k fuel st = some (.again st')) ∧
      MovedOn (k.count beg len n) st st' := by
  have hbegNat : st.nextBeg.toNat = beg := by omega
  have hlenNat : st.nextLen.toNat = len := by omega
  by_cases hcfr : st.useCopyFileRange = true
  · have hmoved := copyFileRange_moved st ht
    rw [hbegNat, hlenNat] at hmoved
    exact ⟨_, fun _ => (if_pos hcfr).trans (congrArg some hmoved), rfl, rfl, rfl, rfl, rfl, rfl,
      rfl⟩
  · have hsf := huse.resolve_left hcfr
    obtain ⟨out, seeks, hstart, _⟩ := sendfile_start hseeks st
    have hmoved := sendfileHere_moved { st with posOut := out, seeks := seeks } ht
    dsimp only at hmoved
    rw [hbegNat, hlenNat] at hmoved
    exact ⟨_, fun _ => (if_neg hcfr).trans ((if_pos hsf).trans
      (congrArg some (hstart.trans hmoved))), rfl, rfl, rfl, rfl, rfl, rfl, rfl⟩

/-- Both descriptors have been set to an extent of which `len` of `avail` bytes were asked
for: what the file has there is read, and counted twice if it is not enough. -/
structure ReadExtent (len avail : Nat) (st st' : CopyState) : Prop where
  canHandleSparse : st'.canHandleSparse = st.canHandleSparse
  useCopyFileRange : st'.useCopyFileRange = st.useCopyFileRange
  useSendfile : st'.useSendfile = st.useSendfile
  nextBeg : st'.nextBeg = st.nextBeg
  nextLen : st'.nextLen = st.nextLen - (min len avail : Nat)
  srcpos : st'.srcpos = if len ≤ avail then st.srcpos + len else st.srcpos + 2 * avail
  transfers : st.transfers ≤ st'.transfers

theorem moveExtent_reads {beg len : Nat} {st : CopyState} (hseeks : ∀ n, k.seekFault n = none)
    (huse : ¬ st.streams) (hs : st.canHandleSparse = true) (hbeg : st.nextBeg = beg)
    (hlen : st.nextLen = len) (hmoves : k.MovesFrom st.transfers) (fuel : Nat) :
    (fuel ≤ min len (k.source.size - beg) ∧ moveExtent k fuel st = none) ∨
    ∃ st', moveExtent k fuel st = some (.again st') ∧
      ReadExtent len (k.source.size - beg) st st' := by
  obtain ⟨hcfr, hsf⟩ := not_or.mp huse
  have hbegNat : st.nextBeg.toNat = beg := by omega
  have hseek : ∃ out seeks, seekBoth k st =
      (.ok (), { st with posIn := beg, posOut := out, seeks := seeks }) := by
    rw [seekBoth, if_pos hs, seekIn_eq hseeks, hbegNat]
    dsimp only
    split
    · rw [seekOut_eq hseeks]
      exact ⟨_, _, rfl⟩
    · exact ⟨_, _, rfl⟩
  obtain ⟨out, seeks, hseek⟩ := hseek
  rw [moveExtent, if_neg hcfr, if_neg hsf, readWrite, hseek]
  dsimp only
  rcases readWriteLoop_moved (k := k) fuel 0 len (k.source.size - beg)
      { st with posIn := beg, posOut := out, seeks := seeks } hlen rfl hmoves with
    ⟨hfuel, hnone⟩ | ⟨st', hloop, hread, hsrcpos⟩
  · rw [hnone]
    exact .inl ⟨hfuel, rfl⟩
  · rw [hloop]
    refine .inr ⟨_, rfl, hread.canHandleSparse, hread.useCopyFileRange, hread.useSendfile,
      hread.nextBeg, hread.nextLen, ?_, hread.transfers⟩
    show st'.srcpos + (0 + ((min len (k.source.size - beg) : Nat) : Int)) = _
    rw [hsrcpos]
    dsimp only
    split <;> omega

/-- The head of the loop at `pos` where holes are skipped.  Once bytes were moved
there is a byte of data no more than one before `pos`. -/
structure Ready (k : Kernel) (pos : Nat) (st : CopyState) : Prop where
  sparse : st.canHandleSparse = true
  supported : k.seekSupported = true
  seekEnd : k.seekEnd = k.source.size
  srcpos : st.srcpos = pos
  le : pos ≤ k.source.size
  first : pos = 0 → ∃ beg stop, k.seekData 0 = some beg ∧
    k.seekHole beg = some stop ∧ st.nextBeg = beg ∧ st.nextLen = (stop : Int) - beg
  last : 0 < pos → ∃ q, pos ≤ q + 1 ∧ q < k.source.size ∧ k.source.data q = true

/-- The extent `[beg, stop)` a round finds, with a byte of data at its end. -/
structure Found (k : Kernel) (pos beg stop : Nat) (st st' : CopyState) : Prop where
  looked : Looked k st st'
  nextBeg : st'.nextBeg = beg
  nextLen : st'.nextLen = (stop - beg : Nat)
  srcpos : st'.srcpos = pos
  sparse : st'.canHandleSparse = true
  data : k.seekData pos = some beg
  hole : k.seekHole beg = some stop
  le : pos ≤ beg
  lt : beg < stop
  stop_le : stop ≤ k.source.size
  last : k.source.data (stop - 1) = true

/-- The first byte of data from `pos` on starts the next extent. -/
theorem nextExtent_ready {pos beg : Nat} {st : CopyState} (hseeks : ∀ n, k.seekFault n = none)
    (h : Ready k pos st) (hbeg : k.seekData pos = some beg) :
    ∃ stop st', Found k pos beg stop st st' := by
  obtain ⟨hle, hlt, hbyte, _⟩ := k.seekData_eq_some hbeg
  obtain ⟨stop, hstop, hlt1, hle1⟩ := k.seekHole_of_data hlt hbyte
  have hlast := SparseFile.File.seekHole_last hlt hbyte hstop
  rw [h.seekEnd] at hlt hle1
  have hlen : (stop : Int) - beg = (stop - beg : Nat) := by omega
  rcases Nat.eq_zero_or_pos pos with hz | hp
  · subst hz
    obtain ⟨beg', stop', hbeg', hstop', hnb, hnl⟩ := h.first rfl
    obtain rfl : beg = beg' := Option.some.inj (hbeg.symm.trans hbeg')
    obtain rfl : stop = stop' := Option.some.inj (hstop.symm.trans hstop')
    have heq : nextExtent k st = (.ok (), st) := by
      rw [nextExtent, if_neg (by rw [h.srcpos]; simp)]
    exact ⟨stop, st, ⟨heq, by omega, rfl, rfl, rfl⟩, hnb, hnl.trans hlen, h.srcpos, h.sparse, hbeg,
      hstop, hle, hlt1, hle1, hlast⟩
  · have hdata := seekExtent_eq hseeks k.seekData pos st
    rw [if_pos h.supported, hbeg, ← h.srcpos] at hdata
    have hhole := seekExtent_eq hseeks k.seekHole beg
      { st with seeks := st.seeks + 1, posIn := beg, nextBeg := (beg : Int) }
    rw [if_pos h.supported, hstop] at hhole
    have heq : nextExtent k st = (.ok (), { st with
        seeks := st.seeks + 1 + 1, posIn := stop, nextBeg := beg, nextEnd := stop
        nextLen := (stop : Int) - beg }) := by
      rw [nextExtent, if_pos (by rw [h.srcpos]; omega), if_pos h.sparse, hdata]
      dsimp only
      rw [hhole]
    have hpos : (0 : Int) < (stop : Int) - beg := by omega
    exact ⟨stop, _, ⟨heq, hpos, rfl, rfl, rfl⟩, rfl, hlen, h.srcpos, h.sparse, hbeg, hstop, hle, hlt1,
      hle1, hlast⟩

/-- Where a round that has moved `num` bytes of the extent leaves the loop. -/
theorem Found.ready {pos beg stop num : Nat} {st st₁ st' : CopyState}
    (hf : Found k pos beg stop st st₁) (h : Ready k pos st) (hpos : 0 < num)
    (hnum : num ≤ stop - beg) (hsrcpos : st'.srcpos = st₁.srcpos + num)
    (hs : st'.canHandleSparse = true) : Ready k (pos + num) st' where
  sparse := hs
  supported := h.supported
  seekEnd := h.seekEnd
  srcpos := by
    rw [hsrcpos, hf.srcpos]
    omega
  le := by
    have := hf.le
    have := hf.stop_le
    omega
  first := fun hz => by omega
  last := fun _ => ⟨stop - 1, by have := hf.le; omega, by
    have := hf.lt
    have := hf.stop_le
    omega, hf.last⟩

/-- Data behind `pos`: a call that moves bytes moves some of it. -/
theorem round_ready_streams {pos beg n : Nat} {st : CopyState}
    (hseeks : ∀ n, k.seekFault n = none) (h : Ready k pos st)
    (hbeg : k.seekData pos = some beg) (huse : st.streams)
    (ht : k.transfer st.transfers = .moved n) :
    ∃ num st', (∀ fuel, round k fuel st = some (.again st')) ∧ 0 < num ∧
      Ready k (pos + num) st' ∧ st'.transfers = st.transfers + 1 := by
  obtain ⟨stop, st₁, hf⟩ := nextExtent_ready hseeks h hbeg
  have hlt := hf.lt
  have hle := hf.stop_le
  obtain ⟨hpos, hnum, _⟩ := k.count_bounds (show beg < k.source.size by omega)
    (show 0 < stop - beg by omega) n
  obtain ⟨st', hmove, hm⟩ := moveExtent_streams hseeks (hf.looked.streams.mpr huse)
    (hf.looked.transfers.symm ▸ ht) hf.nextBeg hf.nextLen
  exact ⟨_, st', fun fuel => (hf.looked.round_eq fuel).trans (hmove fuel), hpos,
    hf.ready h hpos hnum hm.srcpos (hm.canHandleSparse.trans hf.sparse),
    by rw [hm.transfers, hf.looked.transfers]⟩

theorem round_ready {fuel pos beg : Nat} {st : CopyState} (hseeks : ∀ n, k.seekFault n = none)
    (h : Ready k pos st) (hmoves : k.MovesFrom st.transfers)
    (hbeg : k.seekData pos = some beg) (hfuel : k.source.size < fuel) :
    ∃ num st', round k fuel st = some (.again st') ∧ 0 < num ∧ Ready k (pos + num) st' ∧
      st.transfers ≤ st'.transfers := by
  by_cases huse : st.streams
  · obtain ⟨n, ht⟩ := hmoves.here
    obtain ⟨num, st', heq, hpos, h', htr⟩ := round_ready_streams hseeks h hbeg huse ht
    exact ⟨num, st', heq fuel, hpos, h', by omega⟩
  · obtain ⟨stop, st₁, hf⟩ := nextExtent_ready hseeks h hbeg
    have hlt := hf.lt
    have hle := hf.stop_le
    rcases moveExtent_reads hseeks (fun hu => huse (hf.looked.streams.mp hu)) hf.sparse hf.nextBeg
      hf.nextLen (hf.looked.transfers.symm ▸ hmoves) fuel with ⟨hle', _⟩ | ⟨st', hmove, hread⟩
    · omega
    · have hsrcpos := hread.srcpos
      rw [if_pos (by omega)] at hsrcpos
      exact ⟨stop - beg, st', (hf.looked.round_eq fuel).trans hmove, by omega,
        hf.ready h (by omega) (Nat.le_refl _) hsrcpos (hread.canHandleSparse.trans hf.sparse),
        hf.looked.transfers ▸ hread.transfers⟩

/-- No data behind `pos`: the copy ends with the error of `lseek`. -/
theorem round_noData {fuel pos : Nat} {st : CopyState} (hseeks : ∀ n, k.seekFault n = none)
    (h : Ready k pos st) (hbeg : k.seekData pos = none) :
    round k fuel st = some (.done ⟨.seekData, .enxio⟩ { st with seeks := st.seeks + 1 }) := by
  have hp : pos ≠ 0 := by
    rintro rfl
    obtain ⟨beg, _, hdata, _⟩ := h.first rfl
    rw [hbeg] at hdata
    cases hdata
  have hdata := seekExtent_eq hseeks k.seekData pos st
  rw [if_pos h.supported, hbeg, ← h.srcpos] at hdata
  rw [round, nextExtent, if_pos (by rw [h.srcpos]; omega), if_pos h.sparse, hdata]

end File
end DracutInstall

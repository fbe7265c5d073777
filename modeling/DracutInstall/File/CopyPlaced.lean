/-
A copy that tells holes apart puts no byte in a wrong place.

Where the first extent was found, a failed seek ends the copy and a mechanism may be
given up at any time.  Whatever the calls are answered and however the copy ends, each
byte of the destination is zero or the byte of the source at its place; and if it
returns, nothing is missing.
-/
import DracutInstall.File.CopyFidelity

namespace DracutInstall
namespace File

open Rust SparseFile

variable {k : Kernel}

/-! ## What the loop keeps -/

/-- What has been written is in its place, and so are the offsets: the output is at
the start as long as nothing was moved from there.  `pos` is `srcpos`, with what the
inner loop has not yet added to it. -/
structure Tracked (k : Kernel) (pos : Int) (st : CopyState) : Prop where
  sparse : st.canHandleSparse = true
  placed : Placed k.source.content st.dst
  nonneg : 0 ≤ pos
  nextBeg : 0 ≤ st.nextBeg
  nextEnd : 0 ≤ st.nextEnd
  posOut : pos = 0 → st.nextBeg = 0 → st.posOut = 0

/-- The next extent has been looked up. -/
structure Placing (k : Kernel) (st : CopyState) : Prop where
  tracked : Tracked k st.srcpos st
  posOut : st.nextBeg = 0 → st.posOut = 0

/-- A round goes on as before, or has written nothing wrong. -/
def Next.Keeps (k : Kernel) : Next → Prop
  | .again st => Tracked k st.srcpos st
  | .done _ st => Placed k.source.content st.dst

theorem seekExtent_err {find : Nat → Option Nat} {off : Int} {st st' : CopyState} {e : Errno}
    (h : seekExtent k find off st = (.error e, st')) : st' = { st with seeks := st.seeks + 1 } := by
  unfold seekExtent at h
  split at h
  · cases h
    rfl
  · split at h
    · cases h
      rfl
    · split at h
      · cases h
        rfl
      · split at h
        · cases h
        · cases h
          rfl

theorem nextExtent_placing {st st' : CopyState} {r : Except CopyError Unit}
    (h : Tracked k st.srcpos st) (hn : nextExtent k st = (r, st')) :
    Placed k.source.content st'.dst ∧ (r = .ok () → Placing k st') := by
  have hplaced := h.placed
  unfold nextExtent at hn
  by_cases hzero : st.srcpos = 0
  · rw [if_neg (not_not.mpr hzero)] at hn
    cases hn
    exact ⟨hplaced, fun _ => ⟨h, h.posOut hzero⟩⟩
  · rw [if_pos hzero, if_pos h.sparse] at hn
    split at hn
    · rename_i e st₁ hbeg
      cases hn
      rw [seekExtent_err hbeg]
      exact ⟨hplaced, fun hr => by cases hr⟩
    · rename_i beg st₁ hbeg
      obtain ⟨hdata, rfl⟩ := seekExtent_ok hbeg
      obtain ⟨hle, _, _, _⟩ := k.seekData_eq_some hdata
      have hpos := h.nonneg
      have hne : (beg : Int) ≠ 0 := by omega
      dsimp only at hn
      split at hn
      · rename_i e st₂ hstop
        cases hn
        rw [seekExtent_err hstop]
        exact ⟨hplaced, fun hr => by cases hr⟩
      · rename_i stop st₂ hstop
        obtain ⟨_, rfl⟩ := seekExtent_ok hstop
        cases hn
        refine ⟨hplaced, fun _ => ⟨⟨h.sparse, hplaced, hpos, ?_, ?_, fun hz => absurd hz hzero⟩,
          fun hz => absurd hz hne⟩⟩
        · exact Int.natCast_nonneg beg
        · exact Int.natCast_nonneg stop

/-! ## The mechanisms -/

theorem copyFileRangeFailed_tracked {e : Errno} {st : CopyState} (h : Tracked k st.srcpos st) :
    (copyFileRangeFailed e st).Keeps k := by
  unfold copyFileRangeFailed
  split
  · exact ⟨h.sparse, h.placed, h.nonneg, h.nextBeg, h.nextEnd, h.posOut⟩
  · split
    · exact ⟨h.sparse, h.placed, h.nonneg, h.nextBeg, h.nextEnd, h.posOut⟩
    · exact h.placed

theorem sendfileFailed_tracked {e : Errno} {st : CopyState} (h : Tracked k st.srcpos st) :
    (sendfileFailed e st).Keeps k := by
  unfold sendfileFailed
  split
  · exact ⟨h.sparse, h.placed, h.nonneg, h.nextBeg, h.nextEnd, h.posOut⟩
  · split
    · exact ⟨h.sparse, h.placed, h.nonneg, h.nextBeg, h.nextEnd, h.posOut⟩
    · exact h.placed

/-- A call that moved nothing but counted. -/
theorem Tracked.counted {pos : Int} {st : CopyState} (h : Tracked k pos st) :
    Tracked k pos { st with transfers := st.transfers + 1 } :=
  ⟨h.sparse, h.placed, h.nonneg, h.nextBeg, h.nextEnd, h.posOut⟩

theorem copyFileRange_tracked {st : CopyState} (h : Tracked k st.srcpos st) :
    (copyFileRange k st).Keeps k := by
  unfold copyFileRange
  cases ht : k.transfer st.transfers with
  | moved n =>
      have hpos := h.nonneg
      have hbeg := h.nextBeg
      refine ⟨h.sparse, h.placed.write _ _, ?_, ?_, h.nextEnd, fun hz hb => ?_⟩
      · show 0 ≤ st.srcpos + _
        omega
      · show 0 ≤ st.nextBeg + _
        omega
      · have hz' : st.srcpos + (k.count st.nextBeg.toNat st.nextLen.toNat n : Int) = 0 := hz
        have hb' : st.nextBeg + (k.count st.nextBeg.toNat st.nextLen.toNat n : Int) = 0 := hb
        exact h.posOut (by omega) (by omega)
  | errno e => exact copyFileRangeFailed_tracked h.counted
  | writeFailed n w e => exact copyFileRangeFailed_tracked h.counted

/-- `sendfile` writes where it reads. -/
theorem sendfileHere_tracked {st : CopyState} (h : Tracked k st.srcpos st)
    (hout : st.posOut = st.nextBeg.toNat) : (sendfileHere k st).Keeps k := by
  unfold sendfileHere
  cases ht : k.transfer st.transfers with
  | moved n =>
      have hpos := h.nonneg
      have hbeg := h.nextBeg
      refine ⟨h.sparse, ?_, ?_, ?_, h.nextEnd, fun hz hb => ?_⟩
      · show Placed _ (writeAt st.dst st.posOut _)
        rw [hout]
        exact h.placed.write _ _
      · show 0 ≤ st.srcpos + _
        omega
      · show 0 ≤ st.nextBeg + _
        omega
      · have hb' : st.nextBeg + (k.count st.nextBeg.toNat st.nextLen.toNat n : Int) = 0 := hb
        show st.posOut + k.count st.nextBeg.toNat st.nextLen.toNat n = 0
        omega
  | errno e => exact sendfileFailed_tracked h.counted
  | writeFailed n w e => exact sendfileFailed_tracked h.counted

theorem sendfile_tracked {st : CopyState} (h : Placing k st) : (sendfile k st).Keeps k := by
  have ht := h.tracked
  unfold sendfile
  by_cases hzero : st.nextBeg = 0
  · rw [if_neg fun hskip => hskip.2 hzero]
    apply sendfileHere_tracked ht
    rw [h.posOut hzero, hzero]
    rfl
  · rw [if_pos ⟨ht.sparse, hzero⟩, seekOut]
    split
    · rename_i e st' hseek
      split at hseek
      · cases hseek
        exact ht.placed
      · cases hseek
    · rename_i st' hseek
      split at hseek
      · cases hseek
      · cases hseek
        apply sendfileHere_tracked
        · exact ⟨ht.sparse, ht.placed, ht.nonneg, ht.nextBeg, ht.nextEnd, fun _ hz => absurd hz hzero⟩
        · rfl

/-! ## `read` and `write_all` -/

/-- The inner loop: both offsets are the same. -/
structure Reading (k : Kernel) (written : Int) (st : CopyState) : Prop where
  tracked : Tracked k (st.srcpos + written) st
  written : 0 ≤ written
  srcpos : 0 ≤ st.srcpos
  posIn : st.posIn = st.posOut

theorem Reading.moved {written : Int} {st : CopyState} (h : Reading k written st) (len : Nat) :
    Reading k (written + len) { st with
      transfers := st.transfers + 1
      dst := writeAt st.dst st.posOut (slice k.source.content st.posIn len)
      posIn := st.posIn + len
      posOut := st.posOut + len
      nextLen := st.nextLen - len } := by
  have ht := h.tracked
  have hwritten := h.written
  have hsrcpos := h.srcpos
  refine ⟨⟨ht.sparse, ?_, ?_, ht.nextBeg, ht.nextEnd, fun hz hb => ?_⟩, by omega, hsrcpos, ?_⟩
  · show Placed _ (writeAt st.dst st.posOut _)
    rw [h.posIn]
    exact ht.placed.write _ _
  · show 0 ≤ st.srcpos + (written + len)
    omega
  · have hz' : st.srcpos + (written + len) = 0 := hz
    have hout := ht.posOut (by omega) hb
    show st.posOut + len = 0
    omega
  · show st.posIn + len = st.posOut + len
    rw [h.posIn]

theorem readWriteLoop_tracked {fuel : Nat} {written : Int} {st st' : CopyState}
    {r : Except CopyError Int} (h : Reading k written st)
    (hn : readWriteLoop k fuel written st = some (r, st')) :
    Placed k.source.content st'.dst ∧ ∀ num, r = .ok num → Tracked k (st'.srcpos + num) st' := by
  induction fuel generalizing written st with
  | zero => cases hn
  | succ fuel ih =>
      have ht := h.tracked
      have hwritten := h.written
      have hsrcpos := h.srcpos
      rw [readWriteLoop] at hn
      by_cases hmore : st.nextLen > 0
      · rw [if_pos hmore] at hn
        dsimp only at hn
        split at hn
        · split at hn
          · -- an early end of file counts the bytes twice
            cases hn
            refine ⟨ht.placed, fun num hr => ?_⟩
            cases hr
            refine ⟨ht.sparse, ht.placed, ?_, ht.nextBeg, ht.nextEnd, fun hz hb => ?_⟩
            · show 0 ≤ st.srcpos + written + written
              omega
            · have hz' : st.srcpos + written + written = 0 := hz
              exact ht.posOut (by omega) hb
          · exact ih (h.moved _) hn
        · split at hn
          · have hagain : Reading k written { st with transfers := st.transfers + 1 } :=
              ⟨ht.counted, hwritten, hsrcpos, h.posIn⟩
            exact ih hagain hn
          · cases hn
            exact ⟨ht.placed, fun num hr => by cases hr⟩
        · cases hn
          refine ⟨?_, fun num hr => by cases hr⟩
          show Placed _ (writeAt st.dst st.posOut _)
          rw [h.posIn]
          exact ht.placed.write _ _
      · rw [if_neg hmore] at hn
        cases hn
        exact ⟨ht.placed, fun num hr => by cases hr; exact ht⟩

theorem seekBoth_tracked {st st' : CopyState} {r : Except Errno Unit} (h : Placing k st)
    (hn : seekBoth k st = (r, st')) :
    Placed k.source.content st'.dst ∧ (r = .ok () → Reading k 0 st') := by
  have ht := h.tracked
  have hpos : 0 ≤ st.srcpos + 0 := by
    have := ht.nonneg
    omega
  unfold seekBoth at hn
  rw [if_pos ht.sparse] at hn
  split at hn
  · rename_i e st₁ hin
    rw [seekIn] at hin
    dsimp only at hin
    split at hin
    · cases hin
      cases hn
      exact ⟨ht.placed, fun hr => by cases hr⟩
    · cases hin
  · rename_i st₁ hin
    rw [seekIn] at hin
    dsimp only at hin
    split at hin
    · cases hin
    · cases hin
      by_cases hzero : st.nextBeg = 0
      · rw [if_neg (not_not.mpr hzero)] at hn
        cases hn
        refine ⟨ht.placed, fun _ => ⟨⟨ht.sparse, ht.placed, hpos, ht.nextBeg, ht.nextEnd,
          fun _ _ => h.posOut hzero⟩, Int.le_refl 0, ht.nonneg, ?_⟩⟩
        show st.nextBeg.toNat = st.posOut
        rw [h.posOut hzero, hzero]
        rfl
      · rw [if_pos hzero, seekOut] at hn
        dsimp only at hn
        split at hn
        · cases hn
          exact ⟨ht.placed, fun hr => by cases hr⟩
        · cases hn
          exact ⟨ht.placed, fun _ => ⟨⟨ht.sparse, ht.placed, hpos, ht.nextBeg, ht.nextEnd,
            fun _ hz => absurd hz hzero⟩, Int.le_refl 0, ht.nonneg, rfl⟩⟩

theorem readWrite_tracked {fuel : Nat} {st : CopyState} {next : Next} (h : Placing k st)
    (hn : readWrite k fuel st = some next) : next.Keeps k := by
  unfold readWrite at hn
  split at hn
  · rename_i e st₁ hseek
    cases hn
    exact (seekBoth_tracked h hseek).1
  · rename_i st₁ hseek
    have hreading := (seekBoth_tracked h hseek).2 rfl
    split at hn
    · cases hn
    · rename_i e st₂ hloop
      cases hn
      exact (readWriteLoop_tracked hreading hloop).1
    · rename_i num st₂ hloop
      cases hn
      have ht := (readWriteLoop_tracked hreading hloop).2 num rfl
      exact ⟨ht.sparse, ht.placed, ht.nonneg, ht.nextBeg, ht.nextEnd, ht.posOut⟩

/-! ## The loop -/

theorem round_tracked {fuel : Nat} {st : CopyState} {next : Next} (h : Tracked k st.srcpos st)
    (hn : round k fuel st = some next) : next.Keeps k := by
  unfold round at hn
  split at hn
  · rename_i e st₁ hext
    cases hn
    exact (nextExtent_placing h hext).1
  · rename_i st₁ hext
    have hplacing := (nextExtent_placing h hext).2 rfl
    have ht := hplacing.tracked
    split at hn
    · cases hn
      exact ⟨ht.sparse, ht.placed, ht.nextEnd, ht.nextBeg, ht.nextEnd, fun _ => hplacing.posOut⟩
    · split at hn
      · cases hn
        exact copyFileRange_tracked ht
      · split at hn
        · cases hn
          exact sendfile_tracked hplacing
        · exact readWrite_tracked hplacing hn

theorem copyLoop_tracked {fuel : Nat} {st st' : CopyState} {r : Except CopyError Int}
    (h : Tracked k st.srcpos st) (hn : copyLoop k fuel st = some (r, st')) :
    Placed k.source.content st'.dst := by
  induction fuel generalizing st with
  | zero => cases hn
  | succ fuel ih =>
      rw [copyLoop] at hn
      split at hn
      · split at hn
        · cases hn
        · rename_i st₁ hround
          exact ih (round_tracked h hround) hn
        · rename_i e st₁ hround
          cases hn
          exact round_tracked h hround
      · cases hn
        exact h.placed

/-! ## A run that returns -/

/-- The same answers, with no failed seek. -/
def Kernel.seeking (k : Kernel) : Kernel := { k with seekFault := fun _ => none }

theorem seekExtent_seeking {find : Nat → Option Nat} {off : Int} {st st' : CopyState} {p : Nat}
    (h : seekExtent k find off st = (.ok p, st')) :
    seekExtent k.seeking find off st = (.ok p, st') := by
  unfold seekExtent at h
  split at h
  · cases h
  · exact h

theorem seeking_seekData (k : Kernel) : k.seeking.seekData = k.seekData := rfl

theorem seeking_seekHole (k : Kernel) : k.seeking.seekHole = k.seekHole := rfl

theorem nextExtent_seeking {st st' : CopyState} (h : nextExtent k st = (.ok (), st')) :
    nextExtent k.seeking st = (.ok (), st') := by
  unfold nextExtent at h
  rw [nextExtent, seeking_seekData, seeking_seekHole]
  split at h
  · rename_i hpos
    rw [if_pos hpos]
    split at h
    · rename_i hs
      rw [if_pos hs]
      split at h
      · cases h
      · rename_i beg st₁ hbeg
        dsimp only at h
        split at h
        · cases h
        · rename_i stop st₂ hstop
          rw [seekExtent_seeking hbeg]
          dsimp only
          rw [seekExtent_seeking hstop]
          exact h
    · rename_i hs
      rw [if_neg hs]
      exact h
  · rename_i hpos
    rw [if_neg hpos]
    exact h

theorem seekOut_seeking {off : Int} {st st' : CopyState} (h : seekOut k off st = (.ok (), st')) :
    seekOut k.seeking off st = (.ok (), st') := by
  unfold seekOut at h
  split at h
  · cases h
  · exact h

theorem seekIn_seeking {off : Int} {st st' : CopyState} (h : seekIn k off st = (.ok (), st')) :
    seekIn k.seeking off st = (.ok (), st') := by
  unfold seekIn at h
  split at h
  · cases h
  · exact h

theorem sendfile_seeking {st st' : CopyState} (h : sendfile k st = .again st') :
    sendfile k.seeking st = .again st' := by
  unfold sendfile at h
  rw [sendfile]
  split at h
  · rename_i hskip
    rw [if_pos hskip]
    split at h
    · cases h
    · rename_i st₁ hseek
      rw [seekOut_seeking hseek]
      exact h
  · rename_i hskip
    rw [if_neg hskip]
    exact h

theorem seekBoth_seeking {st st' : CopyState} (h : seekBoth k st = (.ok (), st')) :
    seekBoth k.seeking st = (.ok (), st') := by
  unfold seekBoth at h
  rw [seekBoth]
  split at h
  · rename_i hs
    rw [if_pos hs]
    split at h
    · cases h
    · rename_i st₁ hseek
      rw [seekIn_seeking hseek]
      dsimp only
      split at h
      · rename_i hbeg
        rw [if_pos hbeg]
        exact seekOut_seeking h
      · rename_i hbeg
        rw [if_neg hbeg]
        exact h
  · rename_i hs
    rw [if_neg hs]
    exact h

theorem readWriteLoop_seeking (k : Kernel) (fuel : Nat) (written : Int) (st : CopyState) :
    readWriteLoop k.seeking fuel written st = readWriteLoop k fuel written st := by
  induction fuel generalizing written st with
  | zero => rfl
  | succ fuel ih =>
      simp only [readWriteLoop, ih]
      rfl

theorem readWrite_seeking {fuel : Nat} {st st' : CopyState}
    (h : readWrite k fuel st = some (.again st')) :
    readWrite k.seeking fuel st = some (.again st') := by
  unfold readWrite at h
  rw [readWrite]
  split at h
  · cases h
  · rename_i st₁ hseek
    rw [seekBoth_seeking hseek]
    dsimp only
    rw [readWriteLoop_seeking]
    exact h

/-- A round that goes on had no failed seek. -/
theorem round_seeking {fuel : Nat} {st st' : CopyState} (h : round k fuel st = some (.again st')) :
    round k.seeking fuel st = some (.again st') := by
  unfold round at h
  rw [round]
  split at h
  · cases h
  · rename_i st₁ hext
    rw [nextExtent_seeking hext]
    dsimp only
    split at h
    · rename_i hlen
      rw [if_pos hlen]
      exact h
    · rename_i hlen
      rw [if_neg hlen]
      split at h
      · rename_i hcfr
        rw [if_pos hcfr]
        exact h
      · rename_i hcfr
        rw [if_neg hcfr]
        split at h
        · rename_i hsf
          rw [if_pos hsf]
          exact congrArg some (sendfile_seeking (Option.some.inj h))
        · rename_i hsf
          rw [if_neg hsf]
          exact readWrite_seeking h

/-- Where holes are told apart a mechanism may be given up at any time. -/
theorem copyLoop_returned (hlen : k.len = k.source.size) {fuel pos : Nat} {st st' : CopyState}
    {n : Int} (h : Inv k.seeking pos st) (ht : Tracked k st.srcpos st)
    (hn : copyLoop k fuel st = some (.ok n, st')) :
    n = k.source.size ∧ st'.dst = k.source.content := by
  induction fuel generalizing pos st with
  | zero => cases hn
  | succ fuel ih =>
      have hle := h.le
      have hsrcpos := h.srcpos
      have hsize : k.seeking.source.size = k.source.size := rfl
      rw [copyLoop] at hn
      split at hn
      · rename_i hlt
        split at hn
        · cases hn
        · rename_i st₁ hround
          have hfree (st₁ : CopyState) (_ : Inv k.seeking pos st₁)
              (hs : st₁.canHandleSparse = st.canHandleSparse) : MayGiveUp k.seeking pos st₁ :=
            fun _ => .inr (hs.trans ht.sparse)
          obtain ⟨pos', h'⟩ := round_inv (fun _ => rfl) (k.seeking.seekEnd_eq fun _ => hlen) h hfree (by omega) (round_seeking hround)
          exact ih h' (round_tracked ht hround) hn
        · cases hn
      · rename_i hge
        cases hn
        obtain rfl : pos = k.seeking.source.size := by omega
        exact ⟨hsrcpos, h.content.eq⟩

/-! ## The copy -/

/-- Holes can be kept and the first extent is found. -/
structure Kernel.KeepsHoles (k : Kernel) : Prop where
  destIsFile : k.setup.destIsFile = true
  ftruncate : k.setup.ftruncate = none
  supported : k.seekSupported = true
  first : k.seekFault 0 = none
  second : k.seekFault 1 = none
  data : ∃ p < k.seekEnd, k.source.data p = true

theorem Kernel.KeepsHoles.prepare {k : Kernel} (hk : k.KeepsHoles) {sparse : Bool}
    {dst : List UInt8} (h : prepare k = .ok (sparse, dst)) :
    sparse = true ∧ dst = List.replicate k.len 0 := by
  rw [File.prepare, if_pos hk.destIsFile, hk.ftruncate] at h
  have hlast := orFault_bind (orFault_bind (orFault_bind h))
  cases hlast
  exact ⟨rfl, rfl⟩

theorem seekExtent_found {find : Nat → Option Nat} {off p : Nat} (st : CopyState)
    (hsup : k.seekSupported = true) (hfault : k.seekFault st.seeks = none)
    (h : find off = some p) :
    seekExtent k find off st = (.ok p, { st with seeks := st.seeks + 1, posIn := p }) := by
  have hoff : ¬ (off : Int) < 0 := by omega
  simp [seekExtent, hfault, hsup, hoff, h]

theorem Kernel.KeepsHoles.start {k : Kernel} (hk : k.KeepsHoles) (flags : Flags)
    (dst : List UInt8) : ∃ beg stop, FirstData k.seeking true beg stop ∧
      firstExtent k (opened flags true dst) = sparseStart flags dst beg stop := by
  obtain ⟨beg, stop, hbeg, hstop⟩ := k.exists_extent hk.data
  refine ⟨beg, stop, ⟨rfl, hk.supported, hbeg, hstop⟩, ?_⟩
  have hdata := seekExtent_found (opened flags true dst) hk.supported hk.first hbeg
  have hhole := seekExtent_found
    { opened flags true dst with seeks := 1, posIn := beg, nextBeg := beg }
    hk.supported hk.second hstop
  have hfirst : firstBeg k (opened flags true dst) =
      { opened flags true dst with seeks := 1, posIn := beg, nextBeg := beg } := by
    unfold firstBeg
    rw [if_pos (by rfl), show (opened flags true dst).srcpos = ((0 : Nat) : Int) from rfl, hdata]
    rfl
  unfold firstExtent firstEnd
  rw [hfirst, if_pos (by rfl)]
  dsimp only
  rw [hhole]
  rfl

theorem sparseStart_tracked (flags : Flags) (beg stop : Nat) :
    Tracked k 0 (sparseStart flags (List.replicate k.len 0) beg stop) where
  sparse := rfl
  placed := .zeros _ _
  nonneg := Int.le_refl 0
  nextBeg := Int.natCast_nonneg beg
  nextEnd := Int.natCast_nonneg stop
  posOut := fun _ _ => rfl

/-- Whatever the calls of a copy are answered and however it ends, where the first extent
was found each byte of the destination is zero or that of the source at its place; and
a copy of a file that does not change meanwhile returns only when nothing is missing. -/
theorem copy_placed (k : Kernel) (hk : k.KeepsHoles) (flags : Flags) (fuel : Nat) (c : Copied)
    (h : copy k fuel flags = some c) :
    (∀ dst, c.dst = some dst → Placed k.source.content dst) ∧
      ∀ n, k.len = k.source.size → c.result = .ok n →
        c.dst = some k.source.content ∧ n = k.source.content.length := by
  unfold copy at h
  split at h
  · cases h
    exact ⟨fun _ hdst => (nomatch hdst), fun _ _ hr => nomatch hr⟩
  · split at h
    · cases h
      refine ⟨fun _ hdst => ?_, fun _ _ hr => nomatch hr⟩
      cases hdst
      exact .zeros _ 0
    · rename_i sparse dst hprepare
      obtain ⟨rfl, rfl⟩ := hk.prepare hprepare
      split at h
      · cases h
      · rename_i result st hloop
        cases h
        obtain ⟨beg, stop, hfirst, hstart⟩ := hk.start flags (List.replicate k.len 0)
        have htracked := sparseStart_tracked (k := k) flags beg stop
        rw [hstart] at hloop
        refine ⟨fun _ hdst => ?_, fun n hlen hr => ?_⟩
        · cases hdst
          exact copyLoop_tracked htracked hloop
        · cases hr
          have hinv := sparseStart_inv flags (k.seeking.seekEnd_eq fun _ => hlen) hfirst
          rw [hlen] at hloop htracked
          obtain ⟨hn, hdst⟩ := copyLoop_returned hlen hinv htracked hloop
          exact ⟨congrArg some hdst, hn⟩

/-- Five bytes, three of them behind a hole.  `copy_file_range` moves one and is given up,
`sendfile` is given up at once, and a write fails when the disk is full. -/
def interruptedKernel : Kernel :=
  { sampleKernel with
    source := {
      content := [0, 0, 7, 8, 9]
      data := fun p => decide (2 ≤ p)
      hole_zero := by decide }
    len := 5
    seekByStat_data := nofun
    transfer := fun n =>
      match n with
      | 0 => .moved 1
      | 1 => .errno .eperm
      | 2 => .errno .einval
      | 3 => .errno .eintr
      | 4 => .moved 1
      | _ => .writeFailed 2 1 (.other 28) }

theorem interruptedKernel_keepsHoles : interruptedKernel.KeepsHoles where
  destIsFile := rfl
  ftruncate := rfl
  supported := rfl
  first := rfl
  second := rfl
  data := ⟨2, by decide, rfl⟩

theorem copy_interruptedKernel :
    ∃ c, copy interruptedKernel 20 ⟨true, true⟩ = some c ∧
      c.result = .error ⟨.writeAll, .other 28⟩ ∧ c.dst = some [0, 0, 7, 8, 0] ∧
      (∀ dst, c.dst = some dst → Placed interruptedKernel.source.content dst) ∧
      ∀ n, interruptedKernel.len = interruptedKernel.source.size → c.result = .ok n →
        c.dst = some interruptedKernel.source.content ∧
          n = interruptedKernel.source.content.length :=
  ⟨_, rfl, rfl, rfl,
    copy_placed interruptedKernel interruptedKernel_keepsHoles ⟨true, true⟩ 20 _ rfl⟩

end File
end DracutInstall

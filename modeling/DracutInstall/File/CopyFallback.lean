/-
A mechanism that fails after it has moved bytes.

The run with the failure is the run without it up to that transfer, and from
there on a run on the next mechanism.  Where holes are skipped the next mechanism
is told where to go on.  Where they are not, `sendfile` goes on at an output
offset that `copy_file_range` has not moved, and `read` at the start of the
source.
-/
import Mathlib.Logic.Relation
import DracutInstall.File.CopyTermination

namespace DracutInstall
namespace File

open Rust SparseFile

variable {k : Kernel}

/-- The same answers up to the `i`-th transfer, which fails; later ones move
`counts`. -/
def Kernel.failAt (k : Kernel) (i : Nat) (e : Errno) (counts : Nat → Nat) : Kernel :=
  { k with transfer := fun j =>
      if j < i then k.transfer j else if j = i then .errno e else .moved (counts j) }

variable {i : Nat} {e : Errno} {c : Nat → Nat}

theorem failAt_before {j : Nat} (h : j < i) :
    (k.failAt i e c).transfer j = k.transfer j := if_pos h

theorem failAt_here : (k.failAt i e c).transfer i = .errno e :=
  (if_neg (Nat.lt_irrefl i)).trans (if_pos rfl)

theorem failAt_moves : (k.failAt i e c).MovesFrom (i + 1) := by
  intro j hj
  have ht : (k.failAt i e c).transfer j = .moved (c j) :=
    (if_neg (by omega)).trans (if_neg (by omega))
  rw [ht]
  trivial

/-- The errors on which the mechanism in use is given up for the next one. -/
def SelectsNext (st : CopyState) (e : Errno) : Prop :=
  (st.useCopyFileRange = true ∧ (e = .enosys ∨ e = .eperm ∨ e = .exdev ∨ e = .einval)) ∨
  (st.useCopyFileRange = false ∧ st.useSendfile = true ∧
    (e = .enosys ∨ e = .eperm ∨ e = .einval))

theorem SelectsNext.streams {st : CopyState} (h : SelectsNext st e) : st.streams :=
  h.imp And.left fun hsf => hsf.2.1

theorem moveExtent_gaveUp {st : CopyState} (hseeks : ∀ n, k.seekFault n = none)
    (hsel : SelectsNext st e) (ht : k.transfer st.transfers = .errno e) :
    ∃ st', (∀ fuel, moveExtent k fuel st = some (.again st')) ∧ GaveUp st st' := by
  have hnot : ¬ (k.transfer st.transfers).isMoved := by
    rw [ht]
    exact id
  have hagain : ∃ st', ∀ fuel, moveExtent k fuel st = some (.again st') := by
    rcases hsel with ⟨hcfr, he⟩ | ⟨hcfr, hsf, he⟩
    · have hfailed : ∃ st', copyFileRange k st = .again st' := by
        rw [copyFileRange, ht]
        dsimp only
        rw [copyFileRangeFailed]
        split
        · exact ⟨_, rfl⟩
        · rw [if_pos (by tauto)]
          exact ⟨_, rfl⟩
      obtain ⟨st', heq⟩ := hfailed
      exact ⟨st', fun _ => (if_pos hcfr).trans (congrArg some heq)⟩
    · obtain ⟨out, seeks, hstart, _⟩ := sendfile_start hseeks st
      have hfailed : ∃ st', sendfile k st = .again st' := by
        rw [hstart, sendfileHere]
        simp only [ht]
        rw [sendfileFailed]
        split
        · exact ⟨_, rfl⟩
        · rw [if_pos (by tauto)]
          exact ⟨_, rfl⟩
      obtain ⟨st', heq⟩ := hfailed
      exact ⟨st', fun _ => (if_neg (by simp [hcfr])).trans
        ((if_pos hsf).trans (congrArg some heq))⟩
  obtain ⟨st', heq⟩ := hagain
  exact ⟨st', heq, (moveExtent_failed hseeks hsel.streams hnot (heq 0)).1⟩

/-! ## Rounds with and without the failure -/

/-- The kernels differ from the `i`-th transfer on. -/
theorem Looked.failAt {st st₁ : CopyState} (h : Looked k st st₁) :
    Looked (k.failAt i e c) st st₁ :=
  ⟨h.nextExtent, h.nextLen, h.transfers, h.useCopyFileRange, h.useSendfile⟩

theorem Looked.round_failAt {st st₁ : CopyState} (h : Looked k st st₁) (huse : st.streams)
    (hlt : st.transfers < i) (fuel : Nat) :
    round (k.failAt i e c) fuel st = round k fuel st := by
  have ht : (k.failAt i e c).transfer st₁.transfers = k.transfer st₁.transfers :=
    failAt_before (h.transfers ▸ hlt)
  have hhere (st₂ : CopyState) (htr : st₂.transfers = st₁.transfers) :
      sendfileHere (k.failAt i e c) st₂ = sendfileHere k st₂ := by
    unfold sendfileHere
    rw [htr, ht]
    rfl
  have hout (off : Int) : seekOut (k.failAt i e c) off st₁ = seekOut k off st₁ := rfl
  rw [h.round_eq, h.failAt.round_eq, moveExtent, moveExtent]
  by_cases hcfr : st₁.useCopyFileRange = true
  · rw [if_pos hcfr, if_pos hcfr, copyFileRange, copyFileRange, ht]
    rfl
  · have hsf := (h.streams.mpr huse).resolve_left hcfr
    rw [if_neg hcfr, if_neg hcfr, if_pos hsf, if_pos hsf, sendfile, sendfile, hout]
    have hsame : (seekOut k st₁.nextBeg st₁).2.transfers = st₁.transfers := by
      unfold seekOut
      cases k.seekFault st₁.seeks <;> rfl
    split
    · cases hs : seekOut k st₁.nextBeg st₁ with
      | mk r st₂ =>
          rw [hs] at hsame
          cases r with
          | error e => rfl
          | ok u => exact congrArg some (hhere st₂ hsame)
    · exact congrArg some (hhere st₁ rfl)

/-- A round that calls `copy_file_range` or `sendfile` and goes on. -/
structure StreamRound (k : Kernel) (st st' : CopyState) : Prop where
  lt : st.srcpos < k.len
  streams : st.streams
  round : ∃ fuel, round k fuel st = some (.again st')

/-- The states the loop comes to while it calls `copy_file_range` or `sendfile`; a
mechanism that was given up is not tried again. -/
def Reaches (k : Kernel) : CopyState → CopyState → Prop := Relation.ReflTransGen (StreamRound k)

theorem copyLoop_again {st st' : CopyState} {r : Except CopyError Int × CopyState}
    (hlt : st.srcpos < k.len) (hround : ∃ fuel, round k fuel st = some (.again st'))
    (h : ∃ fuel, copyLoop k fuel st' = some r) : ∃ fuel, copyLoop k fuel st = some r := by
  obtain ⟨fuel₁, hround⟩ := hround
  obtain ⟨fuel₂, h⟩ := h
  refine ⟨max fuel₁ fuel₂ + 1, ?_⟩
  rw [copyLoop_succ, if_pos hlt, round_mono (Nat.le_max_left fuel₁ fuel₂) hround]
  exact copyLoop_mono (Nat.le_max_right fuel₁ fuel₂) h

theorem Reaches.copyLoop {start st : CopyState} {r : Except CopyError Int × CopyState}
    (h : Reaches k start st) (hr : ∃ fuel, copyLoop k fuel st = some r) :
    ∃ fuel, copyLoop k fuel start = some r := by
  induction h using Relation.ReflTransGen.head_induction_on with
  | refl => exact hr
  | head hstep _ ih => exact copyLoop_again hstep.lt hstep.round ih

theorem StreamRound.failAt {st st₁ st' : CopyState} (h : StreamRound k st st')
    (hl : Looked k st st₁) (hlt : st.transfers < i) :
    StreamRound (k.failAt i e c) st st' where
  lt := h.lt
  streams := h.streams
  round := by
    obtain ⟨fuel, heq⟩ := h.round
    exact ⟨fuel, (hl.round_failAt h.streams hlt fuel).trans heq⟩

/-! ## Where holes are skipped -/

/-- Giving up a mechanism leaves the loop where it was. -/
theorem Found.gaveUp {pos beg stop : Nat} {st st₁ st' : CopyState}
    (hf : Found k pos beg stop st st₁) (h : Ready k pos st) (hg : GaveUp st₁ st') :
    Ready k pos st' where
  sparse := hg.canHandleSparse.trans hf.sparse
  supported := h.supported
  seekEnd := h.seekEnd
  srcpos := hg.srcpos.trans hf.srcpos
  le := h.le
  first := fun hz => by
    have hlt := hf.lt
    refine ⟨beg, stop, hz ▸ hf.data, hf.hole, hg.nextBeg.trans hf.nextBeg, ?_⟩
    rw [hg.nextLen, hf.nextLen]
    omega
  last := h.last

theorem Ready.failAt {pos : Nat} {st : CopyState} (h : Ready k pos st) :
    Ready (k.failAt i e c) pos st :=
  ⟨h.sparse, h.supported, h.seekEnd, h.srcpos, h.le, h.first, h.last⟩

theorem Inv.failAt {pos : Nat} {st : CopyState} (h : Inv k pos st) (hle : st.transfers ≤ i) :
    Inv (k.failAt i e c) pos st where
  srcpos := h.srcpos
  le := h.le
  content := ⟨h.content.length, h.content.below, h.content.holes⟩
  moved := fun hpos => by
    obtain ⟨j, hj, hmoved⟩ := h.moved hpos
    exact ⟨j, hj, by rw [failAt_before (Nat.lt_of_lt_of_le hj hle)]; exact hmoved⟩
  posOut := h.posOut
  extent := fun hz hlt => by
    obtain ⟨beg, len, he⟩ := h.extent hz hlt
    exact ⟨beg, len, he.nextBeg, he.nextLen, he.lenPos, he.le, he.lt, he.gap, he.within⟩
  nextLen := h.nextLen
  posIn := h.posIn
  mechanism := h.mechanism

/-- A round where holes are skipped, with or without bytes moved. -/
theorem StreamRound.ready {pos : Nat} {st st' : CopyState} (hseeks : ∀ n, k.seekFault n = none)
    (hr : StreamRound k st st') (h : Ready k pos st) :
    (∃ pos', Ready k pos' st') ∧ st'.transfers = st.transfers + 1 ∧ ∃ st₁, Looked k st st₁ := by
  obtain ⟨fuel, heq⟩ := hr.round
  cases hbeg : k.seekData pos with
  | none =>
      rw [round_noData hseeks h hbeg] at heq
      cases heq
  | some beg =>
      obtain ⟨stop, st₁, hf⟩ := nextExtent_ready hseeks h hbeg
      by_cases hmoved : (k.transfer st.transfers).isMoved
      · obtain ⟨n, ht⟩ := Transfer.exists_of_isMoved hmoved
        obtain ⟨num, st₂, heq', _, h', htr⟩ := round_ready_streams hseeks h hbeg hr.streams ht
        obtain rfl : st₂ = st' := Next.again.inj (Option.some.inj ((heq' fuel).symm.trans heq))
        exact ⟨⟨pos + num, h'⟩, htr, st₁, hf.looked⟩
      · rw [hf.looked.round_eq] at heq
        rw [← hf.looked.transfers] at hmoved
        obtain ⟨hg, _⟩ := moveExtent_failed hseeks (hf.looked.streams.mpr hr.streams) hmoved heq
        exact ⟨⟨pos, hf.gaveUp h hg⟩, by rw [hg.transfers, hf.looked.transfers], st₁, hf.looked⟩

/-- Where holes are skipped the way to a state is the way with the failure, too, as
long as it comes later. -/
theorem Reaches.ready {start st : CopyState} (hseeks : ∀ n, k.seekFault n = none)
    (h : Reaches k start st) (hstart : Ready k 0 start) :
    (∃ pos, Ready k pos st) ∧ (st.transfers ≤ i → Reaches (k.failAt i e c) start st) := by
  induction h with
  | refl => exact ⟨⟨0, hstart⟩, fun _ => .refl⟩
  | tail _ hstep ih =>
      obtain ⟨⟨pos, h⟩, hpath⟩ := ih
      obtain ⟨h', htr, st₁, hl⟩ := hstep.ready hseeks h
      exact ⟨h', fun hle => (hpath (by omega)).tail (hstep.failAt hl (by omega))⟩

theorem Reaches.inv {start st : CopyState} (hk : k.Regular) (h : Reaches k start st)
    (hstart : Inv k 0 start) : ∃ pos, Inv k pos st := by
  induction h with
  | refl => exact ⟨0, hstart⟩
  | tail _ hstep ih =>
      obtain ⟨pos, h⟩ := ih
      obtain ⟨fuel, heq⟩ := hstep.round
      have hlt := hstep.lt
      have hunchanged := hk.unchanged
      have hsrcpos := h.srcpos
      exact round_inv hk.seeks hk.seekEnd h (fun _ h₁ _ => hk.mayGiveUp h₁) (by omega) heq

theorem SelectsNext.looked {st st₁ : CopyState} (h : SelectsNext st e) (hl : Looked k st st₁) :
    SelectsNext st₁ e := by
  rw [SelectsNext, hl.useCopyFileRange, hl.useSendfile]
  exact h

/-- A mechanism that fails here leaves the rest to the next one. -/
theorem copyLoop_gaveUp_sparse {pos : Nat} {st : CopyState} (hlen : k.len = k.source.size)
    (hseeks : ∀ n, k.seekFault n = none) (h : Ready k pos st) (hi : Inv k pos st)
    (hlt : pos < k.source.size) (hsel : SelectsNext st e)
    (ht : k.transfer st.transfers = .errno e) (hmoves : k.MovesFrom (st.transfers + 1)) :
    ∃ fuel st', copyLoop k fuel st = some (sparseResult k.source, st') ∧
      st'.dst = k.source.content := by
  have hsrcpos := h.srcpos
  cases hbeg : k.seekData pos with
  | none =>
      -- the mechanism is not called again
      obtain ⟨hresult, hdst⟩ := h.result hi hlt hbeg
      have hdone := copyLoop_succ (k := k) 0 st
      rw [if_pos (by omega), round_noData hseeks h hbeg] at hdone
      dsimp only at hdone
      rw [← hresult] at hdone
      exact ⟨_, _, hdone, hdst⟩
  | some beg =>
      obtain ⟨stop, st₁, hf⟩ := nextExtent_ready hseeks h hbeg
      obtain ⟨st₂, hmove, hg⟩ := moveExtent_gaveUp hseeks (hsel.looked hf.looked)
        (hf.looked.transfers.symm ▸ ht)
      have hround (fuel : Nat) := (hf.looked.round_eq fuel).trans (hmove fuel)
      have h₂ := hf.gaveUp h hg
      obtain ⟨pos₂, hi₂⟩ := round_inv hseeks h.seekEnd hi (fun _ _ hs _ => .inr (hs.trans h.sparse)) hlt
        (hround 0)
      obtain rfl : pos = pos₂ := by
        have := h₂.srcpos.symm.trans hi₂.srcpos
        omega
      have htr : st₂.transfers = st.transfers + 1 := by rw [hg.transfers, hf.looked.transfers]
      obtain ⟨fuel, fin, hfin, hdst⟩ := copyLoop_sparse hlen hseeks h₂ hi₂ (htr ▸ hmoves)
      obtain ⟨fuel', heq⟩ := copyLoop_again (by omega) ⟨0, hround 0⟩ ⟨fuel, hfin⟩
      exact ⟨fuel', fin, heq, hdst⟩

/-- The run with the failure ends as the run without it. -/
theorem copyLoop_failAt_sparse {start st : CopyState} (hk : k.Regular) (hstart : Ready k 0 start)
    (hinv : Inv k 0 start) (hreach : Reaches k start st) (hlt : st.srcpos < k.len)
    (hmoves : k.MovesFrom st.transfers) (hsel : SelectsNext st e) :
    (∃ fuel st', copyLoop k fuel start = some (sparseResult k.source, st') ∧
      st'.dst = k.source.content) ∧
    ∃ fuel st', copyLoop (k.failAt st.transfers e c) fuel start =
      some (sparseResult k.source, st') ∧ st'.dst = k.source.content := by
  have hlen := hk.unchanged
  obtain ⟨⟨pos, h⟩, hpath⟩ := hreach.ready (i := st.transfers) (e := e) (c := c)
    hk.seeks hstart
  obtain ⟨pos', hi⟩ := hreach.inv hk hinv
  have hsrcpos := h.srcpos
  obtain rfl : pos = pos' := by
    have := hi.srcpos
    omega
  obtain ⟨fuel, fin, hfin, hdst⟩ := copyLoop_sparse hlen hk.seeks h hi hmoves
  obtain ⟨fuel', fin', hfin', hdst'⟩ := copyLoop_gaveUp_sparse
    (k := k.failAt st.transfers e c) hlen hk.seeks h.failAt (hi.failAt (Nat.le_refl _))
    (show pos < k.source.size by omega) hsel failAt_here failAt_moves
  obtain ⟨fuel₁, hbase⟩ := hreach.copyLoop ⟨fuel, hfin⟩
  obtain ⟨fuel₂, hother⟩ := (hpath (Nat.le_refl _)).copyLoop ⟨fuel', hfin'⟩
  exact ⟨⟨fuel₁, fin, hbase, hdst⟩, fuel₂, fin', hother, hdst'⟩

/-! ## Where they are not -/

/-- What has been copied in one stretch, with the output behind it. -/
structure Streamed (k : Kernel) (dst₀ : List UInt8) (pos : Nat) (st : CopyState) : Prop where
  streams : Streams k pos pos st
  dst : st.dst = writeAt dst₀ 0 (k.source.content.take pos)

/-- `sendfile` goes on at the start of the output. -/
theorem Streams.gaveUp {pos out : Nat} {stop : Int} {st st' : CopyState} (h : Streams k pos out st)
    (hg : GaveUp { st with nextBeg := pos, nextEnd := stop } st') (hsf : st'.useSendfile = true) :
    Streams k pos 0 st' ∧ st.useCopyFileRange = true := by
  have hcfr : st.useCopyFileRange = true := by
    cases hno : st.useCopyFileRange with
    | true => rfl
    | false => exact nomatch hsf.symm.trans (hg.noSendfile hno)
  have hout : st.posOut = 0 := by
    rcases h.mechanism with hm | hm
    · exact hm.2.2
    · exact nomatch hcfr.symm.trans hm.1
  refine ⟨⟨hg.canHandleSparse.trans h.dense, hg.srcpos.trans h.srcpos,
    fun hz => hg.nextBeg.trans (by show (pos : Int) = 0; omega), hg.nextLen.trans h.nextLen,
    hg.posIn.trans h.posIn, h.le, Nat.zero_le _, .inr ⟨hg.noCopyFileRange, hsf, ?_⟩⟩, hcfr⟩
  exact ((hg.posOut h.dense).trans hout).symm

/-- `read` goes on at the start of the source. -/
theorem Streams.gaveUp_reads {pos out : Nat} {stop : Int} {st st' : CopyState}
    (h : Streams k pos out st) (hg : GaveUp { st with nextBeg := pos, nextEnd := stop } st')
    (hsf : st'.useSendfile = false) (hmoves : k.MovesFrom st'.transfers) :
    Reads k pos k.len k.source.size st' where
  dense := hg.canHandleSparse.trans h.dense
  srcpos := hg.srcpos.trans h.srcpos
  nextLen := hg.nextLen.trans h.nextLen
  posIn := by
    rw [hg.posIn]
    dsimp only
    rw [h.posIn, Nat.zero_add]
  moves := hmoves
  noCopyFileRange := hg.noCopyFileRange
  noSendfile := hsf

/-- A round with or without bytes moved, after which a mechanism is left. -/
theorem StreamRound.streamed {dst₀ : List UInt8} {pos : Nat} {st st' : CopyState} (hk : k.Regular)
    (hr : StreamRound k st st') (h : Streamed k dst₀ pos st) (hi : Inv k pos st)
    (hnext : st'.streams) :
    (∃ pos', Streamed k dst₀ pos' st') ∧ st'.transfers = st.transfers + 1 ∧
      ∃ st₁, Looked k st st₁ := by
  have hlt := hr.lt
  have hsrcpos := h.streams.srcpos
  have hpos : 0 < k.len := by omega
  obtain ⟨fuel, heq⟩ := hr.round
  obtain ⟨stop, hl⟩ := h.streams.looked hpos
  by_cases hmoved : (k.transfer st.transfers).isMoved
  · obtain ⟨n, ht⟩ := Transfer.exists_of_isMoved hmoved
    obtain ⟨num, st₂, heq', hwrite, h', hle, _, htr⟩ := round_streams h.streams hpos ht
    obtain rfl : st₂ = st' := Next.again.inj (Option.some.inj ((heq' fuel).symm.trans heq))
    refine ⟨⟨pos + num, h', ?_⟩, htr, _, hl⟩
    have htake : (k.source.content.take pos).length = pos := List.length_take_of_le h.streams.le
    have hjoin := writeAt_append dst₀ (k.source.content.take pos)
      (slice k.source.content pos num) 0
    rw [htake, Nat.zero_add, ← h.dst, slice, ← List.take_add] at hjoin
    rw [hwrite, slice, hjoin]
  · rw [hl.round_eq] at heq
    obtain ⟨hg, hfallback⟩ := moveExtent_failed hk.seeks (hl.streams.mpr hr.streams) hmoved heq
    obtain rfl : pos = 0 := (hk.mayGiveUp hi hfallback).resolve_right (by simp [h.streams.dense])
    have hsf := hnext.resolve_left (by simp [hg.noCopyFileRange])
    exact ⟨⟨0, (h.streams.gaveUp hg hsf).1, hg.dst.trans h.dst⟩, hg.transfers, _, hl⟩

theorem Reaches.streamed {dst₀ : List UInt8} {start st : CopyState} (hk : k.Regular)
    (h : Reaches k start st) (hstart : Streamed k dst₀ 0 start) (hinv : Inv k 0 start)
    (huse : st.streams) :
    (∃ pos, Streamed k dst₀ pos st) ∧
      (st.transfers ≤ i → Reaches (k.failAt i e c) start st) := by
  induction h with
  | refl => exact ⟨⟨0, hstart⟩, fun _ => .refl⟩
  | tail hpre hstep ih =>
      obtain ⟨⟨pos, h⟩, hpath⟩ := ih hstep.streams
      obtain ⟨pos', hi⟩ := Reaches.inv hk hpre hinv
      obtain rfl : pos = pos' := by
        have := h.streams.srcpos.symm.trans hi.srcpos
        omega
      obtain ⟨h', htr, st₁, hl⟩ := hstep.streamed hk h hi huse
      exact ⟨h', fun hle => (hpath (by omega)).tail (hstep.failAt hl (by omega))⟩

/-- After the failure `sendfile` writes the rest of the source over the output, and
`read` reads all of it, in addition to what was moved. -/
theorem copyLoop_gaveUp_dense {pos : Nat} {st : CopyState} (hlen : k.len = k.source.size)
    (hseeks : ∀ n, k.seekFault n = none) (h : Streams k pos pos st) (hlt : pos < k.source.size)
    (hsel : SelectsNext st e) (ht : k.transfer st.transfers = .errno e)
    (hmoves : k.MovesFrom (st.transfers + 1)) :
    (∃ fuel st', copyLoop k fuel st = some (.ok k.source.size, st') ∧
      st'.dst = writeAt st.dst 0 (k.source.content.drop pos) ∧
      st.useCopyFileRange = true ∧ st.useSendfile = true) ∨
    (∃ fuel st', copyLoop k fuel st = some (.ok (pos + k.source.size : Nat), st') ∧
      ¬ (st.useCopyFileRange = true ∧ st.useSendfile = true)) := by
  have hsrcpos := h.srcpos
  obtain ⟨stop, hl⟩ := h.looked (by omega)
  obtain ⟨st₁, hmove, hg⟩ := moveExtent_gaveUp hseeks (hsel.looked hl) ht
  have hround (fuel : Nat) := (hl.round_eq fuel).trans (hmove fuel)
  have hmoves₁ : k.MovesFrom st₁.transfers := hg.transfers ▸ hmoves
  cases hsf : st₁.useSendfile with
  | true =>
      obtain ⟨h₁, hcfr⟩ := h.gaveUp hg hsf
      obtain ⟨fuel, fin, hfin, hdst⟩ := copyLoop_streams hlen h₁ hmoves₁
      obtain ⟨fuel', heq⟩ := copyLoop_again (by omega) ⟨0, hround 0⟩ ⟨fuel, hfin⟩
      exact .inl ⟨fuel', fin, heq, by rw [hdst, hg.dst], hcfr, (hg.useSendfile hcfr).symm.trans hsf⟩
  | false =>
      have h₁ := h.gaveUp_reads hg hsf hmoves₁
      have hno : ¬ (st.useCopyFileRange = true ∧ st.useSendfile = true) := by
        rintro ⟨hcfr, hyes⟩
        exact nomatch hsf.symm.trans ((hg.useSendfile hcfr).trans hyes)
      rcases round_reads h₁ (by omega) (k.source.size + 1) with ⟨hfuel, _⟩ | ⟨st₂, heq, h₂⟩
      · omega
      · rw [if_pos (by omega), hlen] at h₂
        have hsrcpos₁ := h₁.srcpos
        have hlast := copyLoop_last (by omega) heq (by rw [h₂.srcpos]; omega)
        rw [h₂.srcpos] at hlast
        obtain ⟨fuel', heq⟩ := copyLoop_again (by omega) ⟨0, hround 0⟩ ⟨_, hlast⟩
        exact .inr ⟨fuel', st₂, heq, hno⟩

/-- The run without the failure copies the source, the run with it does so only if
`sendfile` takes over. -/
theorem copyLoop_failAt_dense {dst₀ : List UInt8} {pos : Nat} {start st : CopyState}
    (hk : k.Regular) (hstart : Streamed k dst₀ 0 start) (hinv : Inv k 0 start)
    (hdst₀ : dst₀.length ≤ k.source.content.length) (hreach : Reaches k start st)
    (hsrcpos : st.srcpos = pos) (hlt : pos < k.source.size) (hmoves : k.MovesFrom st.transfers)
    (hsel : SelectsNext st e) :
    st.canHandleSparse = false ∧
    (∃ fuel fin, copyLoop k fuel start = some (.ok k.source.size, fin) ∧
      fin.dst = k.source.content) ∧
    ((∃ fuel fin, copyLoop (k.failAt st.transfers e c) fuel start =
        some (.ok k.source.size, fin) ∧
      fin.dst = writeAt (writeAt dst₀ 0 (k.source.content.take pos)) 0 (k.source.content.drop pos) ∧
      st.useCopyFileRange = true ∧ st.useSendfile = true) ∨
    (∃ fuel fin, copyLoop (k.failAt st.transfers e c) fuel start =
        some (.ok (pos + k.source.size : Nat), fin) ∧
      ¬ (st.useCopyFileRange = true ∧ st.useSendfile = true))) := by
  have hlen := hk.unchanged
  obtain ⟨⟨pos', h⟩, hpath⟩ := hreach.streamed (i := st.transfers) (e := e) (c := c) hk
    hstart hinv hsel.streams
  have hsrcpos' := h.streams.srcpos
  obtain rfl : pos = pos' := by omega
  refine ⟨h.streams.dense, ?_, ?_⟩
  · obtain ⟨fuel, fin, hfin, hdst⟩ := copyLoop_streams hlen h.streams hmoves
    have htake : (k.source.content.take pos).length = pos :=
      List.length_take_of_le h.streams.le
    have hjoin := writeAt_append dst₀ (k.source.content.take pos) (k.source.content.drop pos) 0
    rw [htake, Nat.zero_add, ← h.dst, List.take_append_drop, writeAt_whole hdst₀, ← hdst] at hjoin
    obtain ⟨fuel', heq⟩ := hreach.copyLoop ⟨fuel, hfin⟩
    exact ⟨fuel', fin, heq, hjoin⟩
  · have h' : Streams (k.failAt st.transfers e c) pos pos st :=
      ⟨h.streams.dense, h.streams.srcpos, h.streams.nextBeg, h.streams.nextLen, h.streams.posIn,
        h.streams.le, h.streams.out_le, h.streams.mechanism⟩
    rcases copyLoop_gaveUp_dense (k := k.failAt st.transfers e c) hlen hk.seeks h' hlt hsel
        failAt_here failAt_moves with ⟨fuel, fin, hfin, hdst, huse⟩ | ⟨fuel, fin, hfin, hno⟩
    · obtain ⟨fuel', heq⟩ := (hpath (Nat.le_refl _)).copyLoop ⟨fuel, hfin⟩
      exact .inl ⟨fuel', fin, heq, h.dst ▸ hdst, huse⟩
    · obtain ⟨fuel', heq⟩ := (hpath (Nat.le_refl _)).copyLoop ⟨fuel, hfin⟩
      exact .inr ⟨fuel', fin, heq, hno⟩

/-- When writing the rest over the start gives the source. -/
theorem rest_eq_iff {dst₀ : List UInt8} {sparse : Bool} {pos : Nat}
    (hdst : (sparse = true ∧ dst₀ = List.replicate k.source.size 0) ∨ (sparse = false ∧ dst₀ = []))
    (hpos : 0 < pos) (hlt : pos < k.source.size) :
    writeAt (writeAt dst₀ 0 (k.source.content.take pos)) 0 (k.source.content.drop pos) =
      k.source.content ↔
    sparse = true ∧ ∀ i < k.source.size, i + pos < k.source.size ∨ pos ≤ i →
      k.source.content[i]? = some 0 := by
  rcases hdst with ⟨rfl, rfl⟩ | ⟨rfl, rfl⟩
  · rw [and_iff_right rfl]
    exact writeAt_rest_eq_iff hpos (Nat.le_of_lt hlt)
  · refine iff_of_false (fun heq => ?_) (fun h => nomatch h.1)
    -- what was written is too short
    have hsize : k.source.content.length = k.source.size := rfl
    have htake : (k.source.content.take pos).length = pos :=
      List.length_take_of_le (Nat.le_of_lt hlt)
    have hlen := congrArg List.length heq
    rw [writeAt_length (Nat.zero_le _), writeAt_length (Nat.zero_le _), htake, List.length_drop,
      List.length_nil] at hlen
    omega

/-! ## Whole copies -/

/-- Both copies come back with the same result and the same destination. -/
def SameCopy (k k' : Kernel) (flags : Flags) : Prop :=
  ∃ fuel c c', copy k fuel flags = some c ∧ copy k' fuel flags = some c' ∧
    c.result = c'.result ∧ c.dst = c'.dst

/-- The way to a state where a mechanism is in use starts with one. -/
theorem Reaches.start_streams {start st : CopyState} (h : Reaches k start st) (huse : st.streams) :
    start.streams := by
  rcases Relation.ReflTransGen.cases_head h with rfl | ⟨_, hstep, _⟩
  · exact huse
  · exact hstep.streams

theorem sameCopy_iff {k' : Kernel} {flags : Flags} {start : CopyState}
    {r r' : Except CopyError Int × CopyState}
    (heq : ∀ fuel, copy k fuel flags = (copyLoop k fuel start).map
      fun out => { result := out.1, dst := some out.2.dst, flags := out.2.flags })
    (heq' : ∀ fuel, copy k' fuel flags = (copyLoop k' fuel start).map
      fun out => { result := out.1, dst := some out.2.dst, flags := out.2.flags })
    (hr : ∃ fuel, copyLoop k fuel start = some r)
    (hr' : ∃ fuel, copyLoop k' fuel start = some r') :
    SameCopy k k' flags ↔ r.1 = r'.1 ∧ r.2.dst = r'.2.dst := by
  obtain ⟨fuel, hr⟩ := hr
  obtain ⟨fuel', hr'⟩ := hr'
  constructor
  · rintro ⟨n, c, c', hc, hc', hresult, hdst⟩
    rw [heq, Option.map_eq_some_iff] at hc
    rw [heq', Option.map_eq_some_iff] at hc'
    obtain ⟨out, hout, rfl⟩ := hc
    obtain ⟨out', hout', rfl⟩ := hc'
    rw [copyLoop_agree hr hout, copyLoop_agree hr' hout']
    exact ⟨hresult, Option.some.inj hdst⟩
  · rintro ⟨hresult, hdst⟩
    have hc := heq (max fuel fuel')
    rw [copyLoop_mono (Nat.le_max_left fuel fuel') hr, Option.map_some] at hc
    have hc' := heq' (max fuel fuel')
    rw [copyLoop_mono (Nat.le_max_right fuel fuel') hr', Option.map_some] at hc'
    exact ⟨_, _, _, hc, hc', hresult, congrArg some hdst⟩

/-- A mechanism fails after `pos` bytes with an error that selects the next one.  The
copy is the same as without the failure where holes are skipped, and where
`sendfile`, which then writes the rest over the start, happens to leave a zeroed
destination as it should be. -/
theorem copy_fallback_iff (k : Kernel) (hk : k.Regular) (hopen : openFiles k = .ok ())
    (sparse : Bool) (dst : List UInt8) (hprepare : prepare k = .ok (sparse, dst)) (flags : Flags)
    (st : CopyState) (hreach : Reaches k (firstExtent k (opened flags sparse dst)) st) (pos : Nat)
    (hsrcpos : st.srcpos = pos) (hpos : 0 < pos) (hlt : pos < k.len) (e : Errno)
    (hsel : SelectsNext st e) (hmoves : k.MovesFrom st.transfers) (counts : Nat → Nat) :
    SameCopy k (k.failAt st.transfers e counts) flags ↔
      st.canHandleSparse = true ∨
      (st.useCopyFileRange = true ∧ st.useSendfile = true ∧ sparse = true ∧
        ∀ i < k.source.size, i + pos < k.source.size ∨ pos ≤ i →
          k.source.content[i]? = some 0) := by
  have hlen := hk.unchanged
  have heq (fuel : Nat) := copy_eq hopen hprepare fuel flags
  have heq' (fuel : Nat) := copy_eq (k := k.failAt st.transfers e counts) hopen hprepare fuel flags
  have hdst := prepare_dst hk hprepare
  have hinv := firstExtent_inv hk flags hdst
  rcases firstExtent_cases hk.seeks flags sparse dst with
    ⟨n, hstart, hnone⟩ | ⟨beg, stop, hstart, hfirst⟩
  · have hstart' : firstExtent (k.failAt st.transfers e counts) (opened flags sparse dst) =
        denseStart k flags dst n := hstart
    simp only [hstart] at heq hreach hinv
    simp only [hstart'] at heq'
    have hempty : dst = writeAt dst 0 (k.source.content.take 0) :=
      (writeAt_nil (Nat.zero_le _)).symm
    have hdst₀ : dst.length ≤ k.source.content.length := by
      rcases hdst with ⟨_, rfl⟩ | ⟨_, rfl⟩
      · exact Nat.le_of_eq List.length_replicate
      · exact Nat.zero_le _
    obtain ⟨hdense, ⟨fuel, fin, hfin, hfinDst⟩, hother⟩ := copyLoop_failAt_dense (c := counts) hk
      ⟨Streams.start dst n (hreach.start_streams hsel.streams), hempty⟩ hinv hdst₀ hreach hsrcpos
      (by omega) hmoves hsel
    rw [or_iff_right (by simp [hdense])]
    rcases hother with ⟨fuel', fin', hfin', hfinDst', hcfr, hsf⟩ | ⟨fuel', fin', hfin', hno⟩
    · rw [sameCopy_iff heq heq' ⟨fuel, hfin⟩ ⟨fuel', hfin'⟩, and_iff_right rfl, and_iff_right hcfr,
        and_iff_right hsf, ← rest_eq_iff hdst hpos (by omega), ← hfinDst']
      dsimp only
      rw [hfinDst, eq_comm]
    · rw [sameCopy_iff heq heq' ⟨fuel, hfin⟩ ⟨fuel', hfin'⟩]
      refine iff_of_false (fun ⟨hresult, _⟩ => ?_) fun ⟨hcfr, hsf, _⟩ => hno ⟨hcfr, hsf⟩
      have hcount := Except.ok.inj hresult
      omega
  · have hstart' : firstExtent (k.failAt st.transfers e counts) (opened flags sparse dst) =
        sparseStart flags dst beg stop := hstart
    simp only [hstart] at heq hreach hinv
    simp only [hstart'] at heq'
    have hready := Ready.start flags dst hk.seekEnd hfirst
    obtain ⟨⟨fuel, fin, hfin, hdst⟩, fuel', fin', hfin', hdst'⟩ :=
      copyLoop_failAt_sparse (c := counts) hk hready hinv hreach (by omega) hmoves hsel
    obtain ⟨⟨pos', h⟩, _⟩ := hreach.ready (i := st.transfers) (e := e) (c := counts)
      hk.seeks hready
    refine iff_of_true ?_ (.inl h.sparse)
    exact (sameCopy_iff heq heq' ⟨fuel, hfin⟩ ⟨fuel', hfin'⟩).mpr ⟨rfl, hdst.trans hdst'.symm⟩

/-- The head of the loop after one byte of `dataAtEndKernel` was moved. -/
def oneByteMoved : CopyState :=
  { sparseStart ⟨true, true⟩ [0, 0, 7, 0] 2 4 with
    srcpos := 1, nextBeg := 3, transfers := 1 }

theorem copy_dataAtEndKernel_fallback :
    SameCopy dataAtEndKernel (dataAtEndKernel.failAt 1 .exdev fun _ => 1) ⟨true, true⟩ :=
  (copy_fallback_iff dataAtEndKernel dataAtEndKernel_works.regular rfl true [0, 0, 0, 0] rfl
    ⟨true, true⟩ oneByteMoved (.single ⟨by decide, .inl rfl, 1, rfl⟩) 1 rfl (by decide) (by decide)
    .exdev (.inl ⟨rfl, .inr (.inr (.inl rfl))⟩) (fun _ _ => trivial) fun _ => 1).mpr (.inl rfl)

/-- Four bytes without holes to tell, two of them moved at a time. -/
def fallbackKernel : Kernel :=
  { sampleKernel with
    source := {
      content := [1, 2, 3, 4]
      data := fun _ => true
      hole_zero := fun _ _ h => nomatch h }
    seekSupported := false
    seekByStat_data := nofun
    transfer := fun _ => .moved 2 }

theorem copy_fallbackKernel :
    (∃ st, Reaches fallbackKernel
        (firstExtent fallbackKernel (opened ⟨true, true⟩ true [0, 0, 0, 0])) st ∧
      st.srcpos = 2 ∧ st.transfers = 1 ∧ SelectsNext st .eperm) ∧
    ¬ SameCopy fallbackKernel (fallbackKernel.failAt 1 .eperm fun _ => 4) ⟨true, true⟩ := by
  refine ⟨⟨_, .single ⟨by decide, .inl rfl, 1, rfl⟩, rfl, rfl, .inl ⟨rfl, .inr (.inl rfl)⟩⟩, ?_⟩
  rintro ⟨fuel, c, c', hc, hc', _, hdst⟩
  obtain ⟨whole, hwhole, hsource⟩ : ∃ c, copy fallbackKernel 10 ⟨true, true⟩ = some c ∧
      c.dst = some [1, 2, 3, 4] := ⟨_, rfl, rfl⟩
  obtain ⟨mixed, hmixed, hshifted⟩ :
      ∃ c, copy (fallbackKernel.failAt 1 .eperm fun _ => 4) 10 ⟨true, true⟩ = some c ∧
        c.dst = some [3, 4, 0, 0] := ⟨_, rfl, rfl⟩
  rw [copy_agree hc hwhole, copy_agree hc' hmixed, hsource, hshifted] at hdst
  cases hdst

end File
end DracutInstall

/-
When the loop of `copy` ends, and how.

Where holes are skipped every round gets on, and the loop ends: with the whole
source copied, or with `ENXIO` when a hole is left at the end.  Where they are
not, `copy_file_range` and `sendfile` are the same stream of bytes to different
offsets, which never ends once the file turns out to be shorter than `st_size`,
and `read` counts what it has read twice when it finds the end early.  An `lseek`
that goes by `st_size` brings a short file to the same ends.
-/
import DracutInstall.File.CopyRounds

namespace DracutInstall
namespace File

open Rust SparseFile

variable {k : Kernel}

/-! ## Rules for the loop -/

theorem copyLoop_succ (fuel : Nat) (st : CopyState) :
    copyLoop k (fuel + 1) st =
      if st.srcpos < k.len then
        match round k fuel st with
        | none => none
        | some (.again st) => copyLoop k fuel st
        | some (.done e st) => some (.error e, st)
      else some (.ok st.srcpos, st) := rfl

theorem copyLoop_last {fuel : Nat} {st st' : CopyState} (hlt : st.srcpos < k.len)
    (hround : round k (fuel + 1) st = some (.again st')) (hend : ¬ st'.srcpos < k.len) :
    copyLoop k (fuel + 2) st = some (.ok st'.srcpos, st') := by
  rw [copyLoop_succ, if_pos hlt, hround]
  dsimp only
  rw [copyLoop_succ, if_neg hend]

/-- A loop whose rounds all move bytes, or end it, needs no more rounds than there
are bytes. -/
theorem copyLoop_ends {P : Nat → CopyState → Prop} {Q : Except CopyError Int → CopyState → Prop}
    {b : Nat} (hhead : ∀ pos st, P pos st → st.srcpos = pos)
    (hround : ∀ pos st fuel, P pos st → pos < k.len → b < fuel →
      (∃ num st', round k fuel st = some (.again st') ∧ 0 < num ∧ P (pos + num) st') ∨
      ∃ e st', round k fuel st = some (.done e st') ∧ Q (.error e) st')
    (hend : ∀ pos st, P pos st → k.len ≤ pos → Q (.ok pos) st) :
    ∀ (fuel pos : Nat) (st : CopyState), P pos st → b + (k.len - pos) + 1 < fuel →
      ∃ r st', copyLoop k fuel st = some (r, st') ∧ Q r st' := by
  intro fuel
  induction fuel with
  | zero =>
      intro pos st _ hfuel
      omega
  | succ fuel ih =>
      intro pos st h hfuel
      have hsrcpos := hhead pos st h
      rw [copyLoop_succ]
      by_cases hlt : pos < k.len
      · rw [if_pos (by omega)]
        rcases hround pos st fuel h hlt (by omega) with ⟨num, st', heq, hnum, h'⟩ | ⟨e, st', heq, hq⟩
        · rw [heq]
          exact ih (pos + num) st' h' (by omega)
        · rw [heq]
          exact ⟨_, _, rfl, hq⟩
      · rw [if_neg (by omega)]
        exact ⟨_, _, rfl, hsrcpos ▸ hend pos st h (by omega)⟩

/-- A loop whose rounds all lead back never ends. -/
theorem copyLoop_stuck {P : CopyState → Prop} (hhead : ∀ st, P st → st.srcpos < k.len)
    (hround : ∀ st fuel, P st →
      round k fuel st = none ∨ ∃ st', round k fuel st = some (.again st') ∧ P st') :
    ∀ (fuel : Nat) (st : CopyState), P st → copyLoop k fuel st = none := by
  intro fuel
  induction fuel with
  | zero => exact fun _ _ => rfl
  | succ fuel ih =>
      intro st h
      rw [copyLoop_succ, if_pos (hhead st h)]
      rcases hround st fuel h with heq | ⟨st', heq, h'⟩
      · rw [heq]
      · rw [heq]
        exact ih st' h'

/-! ## The bound on the rounds does not matter -/

theorem readWriteLoop_mono :
    ∀ {fuel fuel' : Nat} {written : Int} {st : CopyState} {r : Except CopyError Int × CopyState},
      fuel ≤ fuel' → readWriteLoop k fuel written st = some r →
      readWriteLoop k fuel' written st = some r := by
  intro fuel
  induction fuel with
  | zero =>
      intro _ _ _ _ _ h
      cases h
  | succ fuel ih =>
      intro fuel' written st r hle h
      obtain ⟨more, rfl⟩ : ∃ n, fuel' = n + 1 := ⟨fuel' - 1, by omega⟩
      rw [readWriteLoop] at h ⊢
      by_cases hlen : st.nextLen > 0
      · rw [if_pos hlen] at h ⊢
        dsimp only at h ⊢
        cases ht : k.transfer st.transfers with
        | moved n =>
            simp only [ht] at h ⊢
            by_cases hz : k.count st.posIn (min st.nextLen.toNat defaultBufSize) n = 0
            · rw [if_pos hz] at h ⊢
              exact h
            · rw [if_neg hz] at h ⊢
              exact ih (by omega) h
        | errno e =>
            simp only [ht] at h ⊢
            by_cases he : e = .eintr
            · rw [if_pos he] at h ⊢
              exact ih (by omega) h
            · rw [if_neg he] at h ⊢
              exact h
        | writeFailed n w e =>
            simp only [ht] at h ⊢
            exact h
      · rw [if_neg hlen] at h ⊢
        exact h

theorem round_mono {fuel fuel' : Nat} {st : CopyState} {r : Next} (hle : fuel ≤ fuel')
    (h : round k fuel st = some r) : round k fuel' st = some r := by
  unfold round readWrite at h ⊢
  cases hn : nextExtent k st with
  | mk res st1 =>
      rw [hn] at h
      cases res with
      | error e => exact h
      | ok u =>
          dsimp only at h ⊢
          by_cases hlen : st1.nextLen ≤ 0
          · rw [if_pos hlen] at h ⊢
            exact h
          rw [if_neg hlen] at h ⊢
          by_cases hcfr : st1.useCopyFileRange = true
          · rw [if_pos hcfr] at h ⊢
            exact h
          rw [if_neg hcfr] at h ⊢
          by_cases hsf : st1.useSendfile = true
          · rw [if_pos hsf] at h ⊢
            exact h
          rw [if_neg hsf] at h ⊢
          cases hseek : seekBoth k st1 with
          | mk res st2 =>
              rw [hseek] at h
              cases res with
              | error e => exact h
              | ok u =>
                  dsimp only at h ⊢
                  cases hloop : readWriteLoop k fuel 0 st2 with
                  | none =>
                      rw [hloop] at h
                      cases h
                  | some out =>
                      rw [hloop] at h
                      rw [readWriteLoop_mono hle hloop]
                      exact h

theorem copyLoop_mono :
    ∀ {fuel fuel' : Nat} {st : CopyState} {r : Except CopyError Int × CopyState},
      fuel ≤ fuel' → copyLoop k fuel st = some r → copyLoop k fuel' st = some r := by
  intro fuel
  induction fuel with
  | zero =>
      intro _ _ _ _ h
      cases h
  | succ fuel ih =>
      intro fuel' st r hle h
      obtain ⟨more, rfl⟩ : ∃ n, fuel' = n + 1 := ⟨fuel' - 1, by omega⟩
      rw [copyLoop_succ] at h ⊢
      by_cases hlt : st.srcpos < k.len
      · rw [if_pos hlt] at h ⊢
        cases hround : round k fuel st with
        | none =>
            rw [hround] at h
            cases h
        | some next =>
            rw [hround] at h
            rw [round_mono (by omega : fuel ≤ more) hround]
            cases next with
            | again st' => exact ih (by omega) h
            | done e st' => exact h
      · rw [if_neg hlt] at h ⊢
        exact h

/-- Two bounds that let the copy come back let it come back with the same. -/
theorem copyLoop_agree {fuel fuel' : Nat} {st : CopyState}
    {r r' : Except CopyError Int × CopyState} (h : copyLoop k fuel st = some r)
    (h' : copyLoop k fuel' st = some r') : r = r' := by
  rcases Nat.le_total fuel fuel' with hle | hle
  · exact Option.some.inj ((copyLoop_mono hle h).symm.trans h')
  · exact Option.some.inj (h.symm.trans (copyLoop_mono hle h'))

/-! ## Where holes are skipped -/

theorem Ready.start (flags : Flags) (dst : List UInt8) {sparse : Bool} {beg stop : Nat}
    (hend : k.seekEnd = k.source.size) (hfirst : FirstData k sparse beg stop) : Ready k 0 (sparseStart flags dst beg stop) where
  sparse := rfl
  supported := hfirst.supported
  seekEnd := hend
  srcpos := rfl
  le := Nat.zero_le _
  first := fun _ => ⟨beg, stop, hfirst.data, hfirst.hole, rfl, rfl⟩
  last := fun h => absurd h (Nat.lt_irrefl 0)

/-- The loop ends, also on a file that is shorter than `st_size`. -/
theorem copyLoop_ready {pos : Nat} {st : CopyState} (hseeks : ∀ n, k.seekFault n = none)
    (h : Ready k pos st) (hmoves : k.MovesFrom st.transfers) :
    ∃ fuel r, copyLoop k fuel st = some r := by
  obtain ⟨r, st', heq, _⟩ := copyLoop_ends (k := k)
    (P := fun pos st => Ready k pos st ∧ k.MovesFrom st.transfers) (Q := fun _ _ => True)
    (b := k.source.size) (fun _ _ h => h.1.srcpos)
    (fun pos st fuel hp _ hfuel => by
      obtain ⟨h, hmoves⟩ := hp
      cases hbeg : k.seekData pos with
      | some beg =>
          obtain ⟨num, st', heq, hnum, h', htr⟩ := round_ready hseeks h hmoves hbeg hfuel
          exact .inl ⟨num, st', heq, hnum, h', hmoves.mono htr⟩
      | none => exact .inr ⟨_, _, round_noData hseeks h hbeg, trivial⟩)
    (fun _ _ _ _ => trivial) _ pos st ⟨h, hmoves⟩ (Nat.lt_succ_self _)
  exact ⟨_, _, heq⟩

/-- How the copy of a file with data ends where holes are skipped. -/
def sparseResult (f : SparseFile.File) : Except CopyError Int :=
  if f.HoleAtEnd then .error ⟨.seekData, .enxio⟩ else .ok f.size

/-- Nothing but a hole is left. -/
theorem Ready.result {pos : Nat} {st : CopyState} (h : Ready k pos st) (hi : Inv k pos st)
    (hlt : pos < k.source.size) (hbeg : k.seekData pos = none) :
    sparseResult k.source = .error ⟨.seekData, .enxio⟩ ∧ st.dst = k.source.content := by
  have hgap := SparseFile.File.seekData_eq_none.mp hbeg
  rw [h.seekEnd] at hgap
  refine ⟨if_pos ⟨by omega, hgap _ (by omega) (by omega)⟩, ?_⟩
  refine Content.eq (hi.content.skip (show pos ≤ k.source.size by omega) fun r h1 h2 => ?_)
  exact ⟨h.sparse, hgap r h1 h2⟩

theorem copyLoop_sparse {pos : Nat} {st : CopyState} (hlen : k.len = k.source.size)
    (hseeks : ∀ n, k.seekFault n = none) (h : Ready k pos st) (hi : Inv k pos st)
    (hmoves : k.MovesFrom st.transfers) :
    ∃ fuel st', copyLoop k fuel st = some (sparseResult k.source, st') ∧
      st'.dst = k.source.content := by
  obtain ⟨r, st', heq, hr, hdst⟩ := copyLoop_ends (k := k)
    (P := fun pos st => Ready k pos st ∧ Inv k pos st ∧ k.MovesFrom st.transfers)
    (Q := fun r st' => r = sparseResult k.source ∧ st'.dst = k.source.content)
    (b := k.source.size) (fun _ _ h => h.1.srcpos)
    (fun pos st fuel hp hlt hfuel => by
      obtain ⟨h, hi, hmoves⟩ := hp
      cases hbeg : k.seekData pos with
      | some beg =>
          obtain ⟨num, st', heq, hnum, h', htr⟩ := round_ready hseeks h hmoves hbeg hfuel
          obtain ⟨pos', hi'⟩ := round_inv hseeks h.seekEnd hi
            (fun _ _ hs _ => .inr (hs.trans h.sparse)) (by omega) heq
          have hpos' : pos' = pos + num := by
            have h1 := h'.srcpos
            have h2 := hi'.srcpos
            omega
          exact .inl ⟨num, st', heq, hnum, h', hpos' ▸ hi', hmoves.mono htr⟩
      | none =>
          obtain ⟨hresult, hdst⟩ := h.result hi (by omega) hbeg
          exact .inr ⟨_, _, round_noData hseeks h hbeg, hresult.symm, hdst⟩)
    (fun pos st hp hend => by
      obtain ⟨h, hi, _⟩ := hp
      have hle := h.le
      obtain rfl : pos = k.source.size := by omega
      refine ⟨(if_neg ?_).symm, hi.content.eq⟩
      rintro ⟨hpos, hdata⟩
      obtain ⟨q, hq, hlt, hbyte⟩ := h.last hpos
      obtain rfl : q = k.source.size - 1 := by omega
      rw [hbyte] at hdata
      cases hdata)
    _ pos st ⟨h, hi, hmoves⟩ (Nat.lt_succ_self _)
  exact ⟨_, st', hr ▸ heq, hdst⟩

/-! ## Where they are not

`copy_file_range` writes from `srcpos` on, `sendfile` from the output offset on,
whatever `srcpos` is. -/

/-- The head of the loop at `pos`, with the next byte to be written at `out`. -/
structure Streams (k : Kernel) (pos out : Nat) (st : CopyState) : Prop where
  dense : st.canHandleSparse = false
  srcpos : st.srcpos = pos
  nextBeg : pos = 0 → st.nextBeg = 0
  nextLen : st.nextLen = k.len
  posIn : st.posIn = 0
  le : pos ≤ k.source.size
  out_le : out ≤ st.dst.length
  mechanism : (st.useCopyFileRange = true ∧ out = pos ∧ st.posOut = 0) ∨
    (st.useCopyFileRange = false ∧ st.useSendfile = true ∧ out = st.posOut)

theorem Streams.streams {pos out : Nat} {st : CopyState} (h : Streams k pos out st) :
    st.streams :=
  h.mechanism.imp And.left fun hsf => hsf.2.1

theorem nextExtent_dense {pos : Nat} {st : CopyState} (hs : st.canHandleSparse = false)
    (hsrcpos : st.srcpos = pos) (hlen : 0 < st.nextLen) :
    ∃ beg stop, Looked k st { st with nextBeg := beg, nextEnd := stop } ∧
      ((pos = 0 → st.nextBeg = 0) → beg = pos) := by
  have heq : ∃ beg stop, nextExtent k st = (.ok (), { st with nextBeg := beg, nextEnd := stop }) ∧
      ((pos = 0 → st.nextBeg = 0) → beg = pos) := by
    rw [nextExtent]
    rcases Nat.eq_zero_or_pos pos with hz | hp
    · rw [if_neg (by omega)]
      exact ⟨st.nextBeg, st.nextEnd, rfl, fun hbeg => (hbeg hz).trans (by omega)⟩
    · rw [if_pos (by omega), if_neg (by simp [hs])]
      exact ⟨_, _, rfl, fun _ => hsrcpos⟩
  obtain ⟨beg, stop, heq, hbeg⟩ := heq
  exact ⟨beg, stop, ⟨heq, hlen, rfl, rfl, rfl⟩, hbeg⟩

/-- The round starts at `pos`. -/
theorem Streams.looked {pos out : Nat} {st : CopyState} (h : Streams k pos out st)
    (hlen : 0 < k.len) : ∃ stop, Looked k st { st with nextBeg := pos, nextEnd := stop } := by
  obtain ⟨beg, stop, hl, hbeg⟩ := nextExtent_dense (k := k) h.dense h.srcpos
    (by rw [h.nextLen]; omega)
  obtain rfl := hbeg h.nextBeg
  exact ⟨stop, hl⟩

/-- A call that moves bytes moves the next ones of the source, if there are any. -/
theorem round_streams {pos out n : Nat} {st : CopyState} (h : Streams k pos out st)
    (hlen : 0 < k.len) (ht : k.transfer st.transfers = .moved n) :
    ∃ num st', (∀ fuel, round k fuel st = some (.again st')) ∧
      st'.dst = writeAt st.dst out (slice k.source.content pos num) ∧
      Streams k (pos + num) (out + num) st' ∧ pos + num ≤ k.source.size ∧
      (pos < k.source.size → 0 < num) ∧ st'.transfers = st.transfers + 1 := by
  obtain ⟨stop, hl⟩ := h.looked hlen
  have hlenNat : st.nextLen.toNat = k.len := by rw [h.nextLen, Int.toNat_natCast]
  obtain ⟨num, hnum⟩ : ∃ num, num = k.count pos k.len n := ⟨_, rfl⟩
  have hle : pos + num ≤ k.source.size := by
    have hpos := h.le
    rw [hnum, Kernel.count]
    omega
  have hwrite := @writeAt_length _ (slice k.source.content pos num) _ h.out_le
  rw [slice_length hle] at hwrite
  have hadd : (st.srcpos : Int) + num = (pos + num : Nat) := by
    rw [h.srcpos]
    omega
  have hback : pos + num = 0 → (pos : Int) + num = 0 := by omega
  have hout : out + num ≤ (writeAt st.dst out (slice k.source.content pos num)).length := by omega
  have hpos : pos < k.source.size → 0 < num := fun hlt => hnum ▸ (k.count_bounds hlt hlen n).1
  rcases h.mechanism with ⟨hcfr, rfl, hzero⟩ | ⟨hcfr, hsf, rfl⟩
  · have hmoved := copyFileRange_moved { st with nextBeg := out, nextEnd := stop } ht
    dsimp only at hmoved
    rw [Int.toNat_natCast, hlenNat, ← hnum] at hmoved
    have heq (fuel : Nat) : moveExtent k fuel { st with nextBeg := out, nextEnd := stop } = _ :=
      (if_pos hcfr).trans (congrArg some hmoved)
    exact ⟨num, _, fun fuel => (hl.round_eq fuel).trans (heq fuel), rfl,
      ⟨h.dense, hadd, hback, h.nextLen, h.posIn, hle, hout, .inl ⟨hcfr, rfl, hzero⟩⟩, hle, hpos,
      rfl⟩
  · have hmoved := sendfileHere_moved { st with nextBeg := pos, nextEnd := stop } ht
    dsimp only at hmoved
    rw [Int.toNat_natCast, hlenNat, ← hnum] at hmoved
    have hsendfile : sendfile k { st with nextBeg := pos, nextEnd := stop } = _ :=
      (if_neg (by simp [h.dense])).trans hmoved
    have heq (fuel : Nat) : moveExtent k fuel { st with nextBeg := pos, nextEnd := stop } = _ :=
      (if_neg (by simp [hcfr])).trans ((if_pos hsf).trans (congrArg some hsendfile))
    exact ⟨num, _, fun fuel => (hl.round_eq fuel).trans (heq fuel), rfl,
      ⟨h.dense, hadd, hback, h.nextLen, h.posIn, hle, hout, .inr ⟨hcfr, hsf, rfl⟩⟩, hle, hpos,
      rfl⟩

/-- The rest of the source goes to the output. -/
theorem copyLoop_streams {pos out : Nat} {st : CopyState} (hlen : k.len = k.source.size)
    (h : Streams k pos out st) (hmoves : k.MovesFrom st.transfers) :
    ∃ fuel st', copyLoop k fuel st = some (.ok k.source.size, st') ∧
      st'.dst = writeAt st.dst out (k.source.content.drop pos) := by
  -- what is still to be written does not change along the loop
  obtain ⟨r, st', heq, hr, hdst⟩ := copyLoop_ends (k := k)
    (P := fun pos' st' => ∃ out', Streams k pos' out' st' ∧ k.MovesFrom st'.transfers ∧
      writeAt st'.dst out' (k.source.content.drop pos') =
        writeAt st.dst out (k.source.content.drop pos))
    (Q := fun r st' => r = .ok k.source.size ∧
      st'.dst = writeAt st.dst out (k.source.content.drop pos))
    (b := 0) (fun _ _ ⟨_, h, _⟩ => h.srcpos)
    (fun pos' st₁ fuel hp hlt _ => by
      obtain ⟨out', h', hmoves, hrest⟩ := hp
      obtain ⟨n, ht⟩ := hmoves.here
      obtain ⟨num, st₂, heq, hwrite, h₂, hle, hnum, htr⟩ := round_streams h' (by omega) ht
      refine .inl ⟨num, st₂, heq fuel, hnum (by omega), out' + num, h₂, hmoves.mono (by omega), ?_⟩
      have hslice : (slice k.source.content pos' num).length = num := slice_length hle
      have hsplit : slice k.source.content pos' num ++ k.source.content.drop (pos' + num) =
          k.source.content.drop pos' := by
        rw [slice, ← List.drop_drop, List.take_append_drop]
      have hjoin := writeAt_append st₁.dst (slice k.source.content pos' num)
        (k.source.content.drop (pos' + num)) out'
      rw [hslice, hsplit] at hjoin
      rw [hwrite, hjoin, hrest])
    (fun pos' st₁ hp hend => by
      obtain ⟨out', h', _, hrest⟩ := hp
      have hle := h'.le
      obtain rfl : pos' = k.source.size := by omega
      have hnone : k.source.content.drop k.source.size = [] :=
        List.drop_eq_nil_of_le (Nat.le_refl _)
      rw [hnone, writeAt_nil h'.out_le] at hrest
      exact ⟨rfl, hrest⟩)
    _ pos st ⟨out, h, hmoves, rfl⟩ (Nat.lt_succ_self _)
  exact ⟨_, st', hr ▸ heq, hdst⟩

/-- A source that is too short is never done. -/
theorem copyLoop_streams_short {pos out : Nat} {st : CopyState} (hlen : k.source.size < k.len)
    (h : Streams k pos out st) (hmoves : k.MovesFrom st.transfers) (fuel : Nat) :
    copyLoop k fuel st = none := by
  refine copyLoop_stuck (P := fun st => ∃ pos out, Streams k pos out st ∧ k.MovesFrom st.transfers)
    ?_ ?_ fuel st ⟨pos, out, h, hmoves⟩
  · rintro st ⟨pos, out, h, _⟩
    have hle := h.le
    have hsrcpos := h.srcpos
    omega
  · rintro st fuel ⟨pos, out, h, hmoves⟩
    obtain ⟨n, ht⟩ := hmoves.here
    obtain ⟨num, st', heq, _, h', _, _, htr⟩ := round_streams h (by omega) ht
    exact .inr ⟨st', heq fuel, pos + num, out + num, h', hmoves.mono (by omega)⟩

/-- The head of the loop where bytes go through `read`, with `avail` of them left in
the file and `next_len` at `m`. -/
structure Reads (k : Kernel) (pos m avail : Nat) (st : CopyState) : Prop where
  dense : st.canHandleSparse = false
  srcpos : st.srcpos = pos
  nextLen : st.nextLen = m
  posIn : st.posIn + avail = k.source.size
  moves : k.MovesFrom st.transfers
  noCopyFileRange : st.useCopyFileRange = false
  noSendfile : st.useSendfile = false

/-- All that is left is read in one round, and counted twice if it is too little. -/
theorem round_reads {pos m avail : Nat} {st : CopyState} (h : Reads k pos m avail st)
    (hm : 0 < m) (fuel : Nat) :
    (fuel ≤ min m avail ∧ round k fuel st = none) ∨
    ∃ st', round k fuel st = some (.again st') ∧
      Reads k (if m ≤ avail then pos + m else pos + 2 * avail) (m - min m avail)
        (avail - min m avail) st' := by
  obtain ⟨beg, stop, hl, _⟩ := nextExtent_dense (k := k) h.dense h.srcpos
    (by rw [h.nextLen]; omega)
  rw [hl.round_eq, moveExtent, if_neg (by simp [h.noCopyFileRange]), if_neg (by simp [h.noSendfile]),
    readWrite, seekBoth, if_neg (by simp [h.dense])]
  dsimp only
  have havail : avail = k.source.size - st.posIn := by
    have := h.posIn
    omega
  rcases readWriteLoop_moved fuel 0 m avail { st with nextBeg := beg, nextEnd := stop } h.nextLen
      havail h.moves with ⟨hfuel, hnone⟩ | ⟨st', hloop, hread, hsrcpos⟩
  · rw [hnone]
    exact .inl ⟨hfuel, rfl⟩
  · rw [hloop]
    refine .inr ⟨_, rfl, hread.canHandleSparse.trans h.dense, ?_, ?_, ?_,
      h.moves.mono hread.transfers, hread.useCopyFileRange.trans h.noCopyFileRange,
      hread.useSendfile.trans h.noSendfile⟩
    · show st'.srcpos + (0 + ((min m avail : Nat) : Int)) = _
      rw [hsrcpos]
      dsimp only
      rw [h.srcpos]
      split <;> omega
    · show st'.nextLen = _
      rw [hread.nextLen]
      dsimp only
      rw [h.nextLen]
      omega
    · show st'.posIn + _ = _
      have hin := h.posIn
      rw [hread.posIn]
      dsimp only
      omega

/-! ## Whole copies -/

theorem copy_eq {sparse : Bool} {dst : List UInt8} (hopen : openFiles k = .ok ())
    (hprepare : prepare k = .ok (sparse, dst)) (fuel : Nat) (flags : Flags) :
    copy k fuel flags = (copyLoop k fuel (firstExtent k (opened flags sparse dst))).map
      fun out => { result := out.1, dst := some out.2.dst, flags := out.2.flags } := by
  rw [copy, hopen]
  dsimp only
  rw [hprepare]
  dsimp only
  cases copyLoop k fuel (firstExtent k (opened flags sparse dst)) <;> rfl

theorem copy_mono {fuel fuel' : Nat} {flags : Flags} {c : Copied} (hle : fuel ≤ fuel')
    (h : copy k fuel flags = some c) : copy k fuel' flags = some c := by
  cases hopen : openFiles k with
  | error e =>
      rw [copy, hopen] at h ⊢
      exact h
  | ok u =>
      cases hprepare : prepare k with
      | error e =>
          rw [copy, hopen] at h ⊢
          dsimp only at h ⊢
          rw [hprepare] at h ⊢
          exact h
      | ok start =>
          rw [copy_eq hopen hprepare, Option.map_eq_some_iff] at h ⊢
          obtain ⟨out, hout, rfl⟩ := h
          exact ⟨out, copyLoop_mono hle hout, rfl⟩

theorem copy_agree {fuel fuel' : Nat} {flags : Flags} {c c' : Copied}
    (h : copy k fuel flags = some c) (h' : copy k fuel' flags = some c') : c = c' := by
  rcases Nat.le_total fuel fuel' with hle | hle
  · exact Option.some.inj ((copy_mono hle h).symm.trans h')
  · exact Option.some.inj (h.symm.trans (copy_mono hle h'))

theorem Streams.start {flags : Flags} (dst : List UInt8) (n : Nat)
    (h : flags.hasCopyFileRange = true ∨ flags.hasSendfile = true) :
    Streams k 0 0 (denseStart k flags dst n) where
  dense := rfl
  srcpos := rfl
  nextBeg := fun _ => rfl
  nextLen := Int.sub_zero _
  posIn := rfl
  le := Nat.zero_le _
  out_le := Nat.zero_le _
  mechanism := by
    cases hcfr : flags.hasCopyFileRange with
    | true => exact .inl ⟨hcfr, rfl, rfl⟩
    | false => exact .inr ⟨hcfr, h.resolve_left (by simp [hcfr]), rfl⟩

theorem Reads.start (hmoves : k.MovesFrom 0) {flags : Flags} (dst : List UInt8) (n : Nat)
    (hcfr : flags.hasCopyFileRange = false) (hsf : flags.hasSendfile = false) :
    Reads k 0 k.len k.source.size (denseStart k flags dst n) where
  dense := rfl
  srcpos := rfl
  nextLen := Int.sub_zero _
  posIn := Nat.zero_add _
  moves := hmoves
  noCopyFileRange := hcfr
  noSendfile := hsf

/-- Where holes are not told apart the copy of a file that keeps its length ends. -/
theorem copyLoop_dense (hlen : k.len = k.source.size) (hmoves : k.MovesFrom 0) (flags : Flags)
    (dst : List UInt8) (seeks : Nat) :
    ∃ fuel n st', copyLoop k fuel (denseStart k flags dst seeks) = some (.ok n, st') := by
  by_cases h : flags.hasCopyFileRange = true ∨ flags.hasSendfile = true
  · obtain ⟨fuel, st', heq, _⟩ := copyLoop_streams hlen (Streams.start dst seeks h) hmoves
    exact ⟨fuel, _, st', heq⟩
  · rw [not_or, Bool.not_eq_true, Bool.not_eq_true] at h
    have hreads := Reads.start (k := k) hmoves dst seeks h.1 h.2
    rcases Nat.eq_zero_or_pos k.len with hz | hp
    · exact ⟨1, _, _, (copyLoop_succ 0 _).trans (if_neg (by rw [hreads.srcpos]; omega))⟩
    · rcases round_reads hreads hp (k.source.size + 1) with ⟨hfuel, _⟩ | ⟨st', heq, h'⟩
      · omega
      · rw [if_pos (by omega)] at h'
        exact ⟨_, _, _, copyLoop_last (by rw [hreads.srcpos]; omega) heq
          (by rw [h'.srcpos]; omega)⟩

/-- No call fails but `lseek`, and that one only where there is nothing to find. -/
structure Kernel.Works (k : Kernel) : Prop where
  unchanged : k.len = k.source.size
  openFrom : k.setup.openFrom = none
  sourceIsFile : k.setup.sourceIsFile = true
  openTo : k.setup.openTo = none
  destIsFile : k.setup.destIsFile = true
  setPermissions : k.setup.setPermissions = none
  fchown : k.setup.fchown = none
  aclCopyFd : k.setup.aclCopyFd = none
  ftruncate : k.setup.ftruncate = none
  seekSupported : k.seekSupported = true
  seeks : ∀ n, k.seekFault n = none
  moves : k.MovesFrom 0

theorem Kernel.Works.regular (h : k.Works) : k.Regular where
  unchanged := h.unchanged
  destIsFile := h.destIsFile
  seeks := h.seeks
  fallbackFirst := fun _ j _ _ hf => by
    obtain ⟨n, ht⟩ := (h.moves.mono (Nat.zero_le j)).here
    rw [ht] at hf
    exact hf

theorem Kernel.Works.openFiles (h : k.Works) : openFiles k = .ok () := by
  rw [File.openFiles, h.openFrom, h.openTo, if_neg (by simp [h.sourceIsFile])]
  rfl

theorem Kernel.Works.prepare (h : k.Works) :
    prepare k = .ok (true, List.replicate k.len 0) := by
  rw [File.prepare, if_pos h.destIsFile, h.setPermissions, h.fchown, h.aclCopyFd, h.ftruncate]
  rfl

theorem Kernel.Works.ends (hk : k.Works) (flags : Flags) :
    ∃ fuel c, copy k fuel flags = some c ∧ ((∃ n, c.result = .ok n) ↔
      ((∃ p < k.source.size, k.source.data p = true) → ¬ k.source.HoleAtEnd)) := by
  have hregular := hk.regular
  have heq (fuel : Nat) := copy_eq hk.openFiles hk.prepare fuel flags
  rcases firstExtent_cases hk.seeks flags true (List.replicate k.len 0) with
    ⟨n, hstart, hnone⟩ | ⟨beg, stop, hstart, hfirst⟩
  · -- there is no data
    have hholes : ¬ ∃ p < k.source.size, k.source.data p = true := by
      intro hdata
      rw [← hregular.seekEnd] at hdata
      obtain ⟨beg, stop, hbeg, hstop⟩ := k.exists_extent hdata
      exact hnone beg stop ⟨rfl, hk.seekSupported, hbeg, hstop⟩
    obtain ⟨fuel, n, st', hloop⟩ :=
      copyLoop_dense hk.unchanged hk.moves flags (List.replicate k.len 0) n
    rw [← hstart] at hloop
    have hcopy := heq fuel
    rw [hloop, Option.map_some] at hcopy
    exact ⟨fuel, _, hcopy, iff_of_true ⟨n, rfl⟩ fun h => absurd h hholes⟩
  · obtain ⟨_, hlt, hbyte, _⟩ := k.seekData_eq_some hfirst.data
    rw [hregular.seekEnd] at hlt
    have hinv := firstExtent_inv hregular flags (prepare_dst hregular hk.prepare)
    rw [hstart] at hinv
    obtain ⟨fuel, st', hloop, _⟩ :=
      copyLoop_sparse hk.unchanged hk.seeks (Ready.start flags _ hregular.seekEnd hfirst) hinv hk.moves
    rw [← hstart] at hloop
    have hcopy := heq fuel
    rw [hloop, Option.map_some] at hcopy
    refine ⟨fuel, _, hcopy, ?_⟩
    dsimp only
    rw [sparseResult]
    by_cases hend : k.source.HoleAtEnd
    · rw [if_pos hend]
      exact iff_of_false (fun ⟨n, hok⟩ => by cases hok) fun h => h ⟨beg, hlt, hbyte⟩ hend
    · rw [if_neg hend]
      exact iff_of_true ⟨_, rfl⟩ fun _ => hend

/-- A file is copied whole unless it has data and ends in a hole: behind the last
data `SEEK_DATA` reports `ENXIO`, and the loop asks for it there. -/
theorem copy_sparse_iff (k : Kernel) (hk : k.Works) (flags : Flags) :
    (∃ fuel c, copy k fuel flags = some c ∧ c.result = .ok (k.source.content.length : Int) ∧
      c.dst = some k.source.content) ↔
    ((∃ p < k.source.size, k.source.data p = true) → ¬ k.source.HoleAtEnd) := by
  obtain ⟨fuel, c, hcopy, hresult⟩ := hk.ends flags
  rw [← hresult]
  constructor
  · rintro ⟨fuel', c', hcopy', hok, _⟩
    rw [copy_agree hcopy hcopy']
    exact ⟨_, hok⟩
  · rintro ⟨n, hok⟩
    obtain ⟨hdst, hn⟩ := copy_returned hk.regular hcopy hok
    rw [hn] at hok
    exact ⟨fuel, c, hcopy, hok, hdst⟩

/-- One byte of data and a hole behind it. -/
def holeAtEndKernel : Kernel :=
  { sampleKernel with
    source := {
      content := [7, 0]
      data := fun p => decide (p = 0)
      hole_zero := by decide }
    len := 2
    seekByStat_data := nofun
    transfer := fun _ => .moved 1 }

theorem holeAtEndKernel_works : holeAtEndKernel.Works :=
  ⟨rfl, rfl, rfl, rfl, rfl, rfl, rfl, rfl, rfl, rfl, fun _ => rfl, fun _ _ => trivial⟩

theorem copy_holeAtEndKernel :
    holeAtEndKernel.Works ∧ ¬ ∃ fuel c, copy holeAtEndKernel fuel ⟨true, true⟩ = some c ∧
      c.result = .ok 2 ∧ c.dst = some [7, 0] := by
  refine ⟨holeAtEndKernel_works, fun ⟨fuel, c, hc, hok, _⟩ => ?_⟩
  obtain ⟨c', hc', hfailed⟩ : ∃ c', copy holeAtEndKernel 10 ⟨true, true⟩ = some c' ∧
      c'.result = .error ⟨.seekData, .enxio⟩ := ⟨_, rfl, rfl⟩
  rw [copy_agree hc hc', hfailed] at hok
  cases hok

/-- The same file without the hole. -/
def dataAtEndKernel : Kernel :=
  { sampleKernel with
    transfer := fun _ => .moved 1 }

theorem dataAtEndKernel_works : dataAtEndKernel.Works :=
  ⟨rfl, rfl, rfl, rfl, rfl, rfl, rfl, rfl, rfl, rfl, fun _ => rfl, fun _ _ => trivial⟩

theorem copy_dataAtEndKernel :
    ∃ fuel c, copy dataAtEndKernel fuel ⟨true, true⟩ = some c ∧ c.result = .ok 4 ∧
      c.dst = some [0, 0, 7, 8] :=
  (copy_sparse_iff dataAtEndKernel dataAtEndKernel_works ⟨true, true⟩).mpr
    fun _ h => absurd h.2 (by decide)

/-! ## A source shorter than `st_size` -/

theorem copyLoop_reads_short (hlen : k.source.size < k.len) (hmoves : k.MovesFrom 0)
    {flags : Flags} (dst : List UInt8) (seeks : Nat) (hcfr : flags.hasCopyFileRange = false)
    (hsf : flags.hasSendfile = false) :
    (∃ fuel r, copyLoop k fuel (denseStart k flags dst seeks) = some r) ↔
      k.len ≤ 2 * k.source.size := by
  have hreads := Reads.start (k := k) hmoves dst seeks hcfr hsf
  have hfirst (fuel : Nat) :
      (fuel ≤ k.source.size ∧ round k fuel (denseStart k flags dst seeks) = none) ∨
      ∃ st', round k fuel (denseStart k flags dst seeks) = some (.again st') ∧
        Reads k (2 * k.source.size) (k.len - k.source.size) 0 st' := by
    rcases round_reads hreads (by omega) fuel with ⟨hfuel, hnone⟩ | ⟨st', heq, h'⟩
    · exact .inl ⟨by omega, hnone⟩
    · rw [if_neg (by omega), Nat.zero_add, Nat.min_eq_right (Nat.le_of_lt hlen), Nat.sub_self] at h'
      exact .inr ⟨st', heq, h'⟩
  constructor
  · rintro ⟨fuel, r, h⟩
    apply Nat.le_of_not_lt
    intro hmore
    -- `srcpos` stays at twice the size, and nothing is left to read
    have hstuck := copyLoop_stuck (k := k)
      (P := Reads k (2 * k.source.size) (k.len - k.source.size) 0)
      (fun st h => by rw [h.srcpos]; omega) (fun st fuel h => by
        rcases round_reads h (by omega) fuel with ⟨_, hnone⟩ | ⟨st', heq, h'⟩
        · exact .inl hnone
        · rw [if_neg (by omega), Nat.min_zero, Nat.mul_zero, Nat.add_zero, Nat.sub_zero] at h'
          exact .inr ⟨st', heq, h'⟩)
    cases fuel with
    | zero => cases h
    | succ fuel =>
        rw [copyLoop_succ, if_pos (by rw [hreads.srcpos]; omega)] at h
        rcases hfirst fuel with ⟨_, hnone⟩ | ⟨st', heq, h'⟩
        · rw [hnone] at h
          cases h
        · rw [heq] at h
          dsimp only at h
          rw [hstuck fuel st' h'] at h
          cases h
  · intro hle
    rcases hfirst (k.source.size + 1) with ⟨hfuel, _⟩ | ⟨st', heq, h'⟩
    · omega
    · exact ⟨_, _, copyLoop_last (by rw [hreads.srcpos]; omega) heq (by rw [h'.srcpos]; omega)⟩

/-! ## A source that `lseek` takes for longer than it is -/

theorem Kernel.seekData_byStat (h : k.seekByStat = true) {off : Nat} (hoff : off < k.len) :
    k.seekData off = some off := by
  rw [Kernel.seekData, Kernel.seekEnd, if_pos h]
  exact SparseFile.File.seekData_of_data hoff (k.seekByStat_data h off)

theorem Kernel.seekHole_byStat (h : k.seekByStat = true) {off : Nat} (hoff : off < k.len) :
    k.seekHole off = some k.len := by
  rw [Kernel.seekHole, Kernel.seekEnd, if_pos h]
  exact SparseFile.File.seekHole_of_dense hoff (k.seekByStat_data h)

/-- The head of the loop at `pos` where all up to `st_size` is one extent. -/
structure ByStat (k : Kernel) (pos : Nat) (st : CopyState) : Prop where
  byStat : k.seekByStat = true
  supported : k.seekSupported = true
  sparse : st.canHandleSparse = true
  srcpos : st.srcpos = pos
  first : pos = 0 → st.nextBeg = 0 ∧ st.nextLen = k.len
  moves : k.MovesFrom st.transfers

theorem nextExtent_byStat {pos : Nat} {st : CopyState} (hseeks : ∀ n, k.seekFault n = none)
    (h : ByStat k pos st) (hlt : pos < k.len) :
    ∃ st₁, Looked k st st₁ ∧ st₁.nextBeg = pos ∧ st₁.nextLen = (k.len - pos : Nat) ∧
      st₁.srcpos = pos ∧ st₁.canHandleSparse = true := by
  rcases Nat.eq_zero_or_pos pos with hz | hp
  · obtain ⟨hbeg, hlen⟩ := h.first hz
    have heq : nextExtent k st = (.ok (), st) := by
      rw [nextExtent, if_neg (by rw [h.srcpos, hz]; simp)]
    exact ⟨st, ⟨heq, by omega, rfl, rfl, rfl⟩, by omega, by omega, h.srcpos, h.sparse⟩
  · have hdata := seekExtent_eq hseeks k.seekData pos st
    rw [if_pos h.supported, k.seekData_byStat h.byStat hlt, ← h.srcpos] at hdata
    have hhole := seekExtent_eq hseeks k.seekHole pos
      { st with seeks := st.seeks + 1, posIn := pos, nextBeg := (pos : Int) }
    rw [if_pos h.supported, k.seekHole_byStat h.byStat hlt] at hhole
    have heq : nextExtent k st = (.ok (), { st with
        seeks := st.seeks + 1 + 1, posIn := k.len, nextBeg := pos, nextEnd := k.len
        nextLen := (k.len : Int) - pos }) := by
      rw [nextExtent, if_pos (by rw [h.srcpos]; omega), if_pos h.sparse, hdata]
      dsimp only
      rw [hhole]
    have hpos : (0 : Int) < (k.len : Int) - pos := by omega
    refine ⟨_, ⟨heq, hpos, rfl, rfl, rfl⟩, rfl, ?_, h.srcpos, h.sparse⟩
    show (k.len : Int) - pos = _
    omega

/-- `copy_file_range` and `sendfile` get to the end of what is there, and no further. -/
theorem copyLoop_byStat_streams {pos : Nat} {st : CopyState} (hseeks : ∀ n, k.seekFault n = none)
    (hlen : k.source.size < k.len) (h : ByStat k pos st) (hle : pos ≤ k.source.size)
    (huse : st.streams) (fuel : Nat) : copyLoop k fuel st = none := by
  refine copyLoop_stuck
    (P := fun st => ∃ pos, ByStat k pos st ∧ pos ≤ k.source.size ∧ st.streams) ?_ ?_ fuel st
    ⟨pos, h, hle, huse⟩
  · rintro st ⟨pos, h, hle, _⟩
    have hsrcpos := h.srcpos
    omega
  · rintro st fuel ⟨pos, h, hle, huse⟩
    obtain ⟨n, ht⟩ := h.moves.here
    obtain ⟨st₁, hl, hbeg, hlen₁, hsrcpos, hs⟩ := nextExtent_byStat hseeks h (by omega)
    obtain ⟨st', hmove, hm⟩ := moveExtent_streams hseeks (hl.streams.mpr huse)
      (hl.transfers.symm ▸ ht) hbeg hlen₁
    have hcount : pos + k.count pos (k.len - pos) n ≤ k.source.size := by
      unfold Kernel.count
      omega
    refine .inr ⟨st', (hl.round_eq fuel).trans (hmove fuel), _, ⟨h.byStat, h.supported,
      hm.canHandleSparse.trans hs, ?_, fun hz => ?_, ?_⟩, hcount, ?_⟩
    · rw [hm.srcpos, hsrcpos]
      omega
    · rw [hm.nextBeg, hm.nextLen, hbeg, hlen₁]
      omega
    · rw [hm.transfers, hl.transfers]
      exact h.moves.mono (Nat.le_succ _)
    · rw [CopyState.streams, hm.useCopyFileRange, hm.useSendfile]
      exact hl.streams.mpr huse

/-- One round of `read` counts what is there from `pos` on twice. -/
theorem round_byStat_reads {pos : Nat} {st : CopyState} (hseeks : ∀ n, k.seekFault n = none)
    (hlen : k.source.size < k.len) (h : ByStat k pos st) (hlt : pos < k.len)
    (huse : ¬ st.streams) (fuel : Nat) :
    (fuel ≤ k.source.size ∧ round k fuel st = none) ∨
    ∃ st', round k fuel st = some (.again st') ∧
      ByStat k (pos + 2 * (k.source.size - pos)) st' ∧ ¬ st'.streams := by
  obtain ⟨st₁, hl, hbeg, hlen₁, hsrcpos, hs⟩ := nextExtent_byStat hseeks h hlt
  rw [hl.round_eq]
  rcases moveExtent_reads hseeks (fun hu => huse (hl.streams.mp hu)) hs hbeg hlen₁
    (hl.transfers.symm ▸ h.moves) fuel with ⟨hfuel, hnone⟩ | ⟨st', hmove, hread⟩
  · exact .inl ⟨by omega, hnone⟩
  · refine .inr ⟨st', hmove, ⟨h.byStat, h.supported, hread.canHandleSparse.trans hs, ?_,
      fun hz => ?_, ?_⟩, ?_⟩
    · rw [hread.srcpos, if_neg (by omega), hsrcpos]
      omega
    · rw [hread.nextBeg, hread.nextLen, hbeg, hlen₁]
      omega
    · exact h.moves.mono (hl.transfers ▸ hread.transfers)
    · rw [CopyState.streams, hread.useCopyFileRange, hread.useSendfile]
      exact fun hu => huse (hl.streams.mp hu)

theorem copyLoop_byStat_reads {st : CopyState} (hseeks : ∀ n, k.seekFault n = none)
    (hlen : k.source.size < k.len) (h : ByStat k 0 st) (huse : ¬ st.streams) :
    (∃ fuel r, copyLoop k fuel st = some r) ↔ k.len ≤ 2 * k.source.size := by
  have hsrcpos := h.srcpos
  have hfirst := round_byStat_reads hseeks hlen h (by omega) huse
  rw [Nat.zero_add, Nat.sub_zero] at hfirst
  constructor
  · rintro ⟨fuel, r, hr⟩
    apply Nat.le_of_not_lt
    intro hmore
    -- nothing is left to read, and `srcpos` stays where it is
    have hstuck := copyLoop_stuck (k := k)
      (P := fun st => ByStat k (2 * k.source.size) st ∧ ¬ st.streams)
      (fun st hst => by rw [hst.1.srcpos]; omega) (fun st fuel hst => by
        rcases round_byStat_reads hseeks hlen hst.1 hmore hst.2 fuel with
          ⟨_, hnone⟩ | ⟨st', heq, h', huse'⟩
        · exact .inl hnone
        · rw [show 2 * k.source.size + 2 * (k.source.size - 2 * k.source.size) =
            2 * k.source.size by omega] at h'
          exact .inr ⟨st', heq, h', huse'⟩)
    cases fuel with
    | zero => cases hr
    | succ fuel =>
        rw [copyLoop_succ, if_pos (by omega)] at hr
        rcases hfirst fuel with ⟨_, hnone⟩ | ⟨st', heq, h', huse'⟩
        · rw [hnone] at hr
          cases hr
        · rw [heq] at hr
          dsimp only at hr
          rw [hstuck fuel st' ⟨h', huse'⟩] at hr
          cases hr
  · intro hle
    rcases hfirst (k.source.size + 1) with ⟨hfuel, _⟩ | ⟨st', heq, h', _⟩
    · omega
    · exact ⟨_, _, copyLoop_last (by omega) heq (by rw [h'.srcpos]; omega)⟩

theorem ByStat.start {sparse : Bool} {beg stop : Nat} (flags : Flags) (dst : List UInt8)
    (hstat : k.seekByStat = true) (hlen : 0 < k.len) (hfirst : FirstData k sparse beg stop)
    (hmoves : k.MovesFrom 0) : ByStat k 0 (sparseStart flags dst beg stop) where
  byStat := hstat
  supported := hfirst.supported
  sparse := rfl
  srcpos := rfl
  first := fun _ => by
    obtain rfl : beg = 0 :=
      Option.some.inj (hfirst.data.symm.trans (k.seekData_byStat hstat hlen))
    obtain rfl : stop = k.len :=
      Option.some.inj (hfirst.hole.symm.trans (k.seekHole_byStat hstat hlen))
    exact ⟨rfl, Int.sub_zero _⟩
  moves := hmoves

/-! ## Whole copies of a source that is too short -/

theorem copyLoop_dense_short_iff (hlen : k.source.size < k.len) (hmoves : k.MovesFrom 0)
    (flags : Flags) (dst : List UInt8) (seeks : Nat) :
    (∃ fuel r, copyLoop k fuel (denseStart k flags dst seeks) = some r) ↔
      flags.hasCopyFileRange = false ∧ flags.hasSendfile = false ∧ k.len ≤ 2 * k.source.size := by
  by_cases h : flags.hasCopyFileRange = true ∨ flags.hasSendfile = true
  · refine iff_of_false ?_ ?_
    · rintro ⟨fuel, r, hr⟩
      rw [copyLoop_streams_short hlen (Streams.start dst seeks h) hmoves] at hr
      cases hr
    · rintro ⟨hcfr, hsf, _⟩
      simp [hcfr, hsf] at h
  · obtain ⟨hcfr, hsf⟩ := not_or.mp h
    rw [Bool.not_eq_true] at hcfr hsf
    rw [copyLoop_reads_short hlen hmoves dst seeks hcfr hsf]
    exact ⟨fun hle => ⟨hcfr, hsf, hle⟩, fun h => h.2.2⟩

theorem copyLoop_byStat_iff (hlen : k.source.size < k.len) (hmoves : k.MovesFrom 0)
    (hseeks : ∀ n, k.seekFault n = none) (hstat : k.seekByStat = true) (flags : Flags)
    (dst : List UInt8) {sparse : Bool} {beg stop : Nat} (hfirst : FirstData k sparse beg stop) :
    (∃ fuel r, copyLoop k fuel (sparseStart flags dst beg stop) = some r) ↔
      flags.hasCopyFileRange = false ∧ flags.hasSendfile = false ∧ k.len ≤ 2 * k.source.size := by
  have hstart := ByStat.start flags dst hstat (by omega) hfirst hmoves
  by_cases h : flags.hasCopyFileRange = true ∨ flags.hasSendfile = true
  · refine iff_of_false ?_ ?_
    · rintro ⟨fuel, r, hr⟩
      rw [copyLoop_byStat_streams hseeks hlen hstart (Nat.zero_le _) h] at hr
      cases hr
    · rintro ⟨hcfr, hsf, _⟩
      simp [hcfr, hsf] at h
  · obtain ⟨hcfr, hsf⟩ := not_or.mp h
    rw [Bool.not_eq_true] at hcfr hsf
    rw [copyLoop_byStat_reads hseeks hlen hstart h]
    exact ⟨fun hle => ⟨hcfr, hsf, hle⟩, fun h => h.2.2⟩

/-- The copy of a file that is shorter than `st_size` comes back if it skips holes and
`lseek` reports the end where there is nothing more to read (with an error), or if it
reads and the bytes that are there, counted twice, reach `st_size`. -/
theorem copy_short_iff (k : Kernel) (hlen : k.source.size < k.len) (hmoves : k.MovesFrom 0)
    (hseeks : ∀ n, k.seekFault n = none) (hopen : openFiles k = .ok ()) (sparse : Bool)
    (dst : List UInt8) (hprepare : prepare k = .ok (sparse, dst)) (flags : Flags) :
    (∃ fuel c, copy k fuel flags = some c) ↔
      (sparse = true ∧ k.seekSupported = true ∧ (∃ p < k.seekEnd, k.source.data p = true) ∧
        k.seekData k.source.size = none) ∨
      (flags.hasCopyFileRange = false ∧ flags.hasSendfile = false ∧
        k.len ≤ 2 * k.source.size) := by
  have heq : (∃ fuel c, copy k fuel flags = some c) ↔
      ∃ fuel r, copyLoop k fuel (firstExtent k (opened flags sparse dst)) = some r := by
    simp only [copy_eq hopen hprepare, Option.map_eq_some_iff]
    exact ⟨fun ⟨fuel, _, out, h, _⟩ => ⟨fuel, out, h⟩, fun ⟨fuel, r, h⟩ => ⟨fuel, _, r, h, rfl⟩⟩
  rw [heq]
  rcases firstExtent_cases hseeks flags sparse dst with ⟨n, hstart, hnone⟩ | ⟨beg, stop, hstart, hfirst⟩
  · have hdense : ¬ (sparse = true ∧ k.seekSupported = true ∧
        (∃ p < k.seekEnd, k.source.data p = true) ∧ k.seekData k.source.size = none) := by
      rintro ⟨hs, hsup, hdata, _⟩
      obtain ⟨beg, stop, hbeg, hstop⟩ := k.exists_extent hdata
      exact hnone beg stop ⟨hs, hsup, hbeg, hstop⟩
    rw [hstart, or_iff_right hdense]
    exact copyLoop_dense_short_iff hlen hmoves flags dst n
  · rw [hstart]
    cases hstat : k.seekByStat with
    | true =>
        have hmore : k.seekData k.source.size ≠ none := by
          rw [k.seekData_byStat hstat hlen]
          exact Option.some_ne_none _
        rw [or_iff_right fun h => hmore h.2.2.2]
        exact copyLoop_byStat_iff hlen hmoves hseeks hstat flags dst hfirst
    | false =>
        have hend : k.seekEnd = k.source.size := k.seekEnd_eq fun h => nomatch hstat.symm.trans h
        have hnone : k.seekData k.source.size = none := by
          rw [Kernel.seekData, hend]
          exact SparseFile.File.seekData_eq_none.mpr fun r h1 h2 => by omega
        obtain ⟨_, hlt, hbyte, _⟩ := k.seekData_eq_some hfirst.data
        exact iff_of_true (copyLoop_ready hseeks (Ready.start flags dst hend hfirst) hmoves)
          (.inl ⟨hfirst.sparse, hfirst.supported, ⟨beg, hlt, hbyte⟩, hnone⟩)

/-- One byte is left of two, as `lseek` knows. -/
def truncatedKernel : Kernel :=
  { sampleKernel with
    source := .dense [7]
    len := 2
    seekByStat_data := nofun
    transfer := fun _ => .moved 1 }

/-- A pseudo file: four bytes, and `st_size` is a page. -/
def pseudoKernel : Kernel :=
  { sampleKernel with
    source := .dense [51, 49, 52, 10]
    len := 4096
    seekByStat := true
    seekByStat_data := fun _ _ => rfl
    transfer := fun _ => .moved 4096 }

theorem truncatedKernel_moves : truncatedKernel.MovesFrom 0 := fun _ _ => trivial

theorem pseudoKernel_moves : pseudoKernel.MovesFrom 0 := fun _ _ => trivial

theorem pseudoKernel_prepare :
    prepare pseudoKernel = .ok (true, List.replicate 4096 0) := rfl

theorem copy_pseudoKernel :
    ¬ ∃ fuel c, copy pseudoKernel fuel ⟨true, true⟩ = some c := by
  rintro ⟨fuel, c, h⟩
  have hlen : pseudoKernel.source.size < pseudoKernel.len := by decide
  rw [copy_eq (show openFiles pseudoKernel = _ from rfl) pseudoKernel_prepare,
    Option.map_eq_some_iff] at h
  obtain ⟨out, hout, _⟩ := h
  rcases firstExtent_cases (k := pseudoKernel) (fun _ => rfl) ⟨true, true⟩ true
    (List.replicate 4096 0) with ⟨n, hstart, _⟩ | ⟨beg, stop, hstart, hfirst⟩
  · rw [hstart, copyLoop_streams_short hlen (Streams.start _ n (.inl rfl)) pseudoKernel_moves] at hout
    cases hout
  · rw [hstart, copyLoop_byStat_streams (fun _ => rfl) hlen
      (ByStat.start _ _ rfl (by decide) hfirst pseudoKernel_moves) (Nat.zero_le _) (.inl rfl)] at hout
    cases hout

/-- The truncated file ends the copy, and the pseudo file does not, whatever moves its bytes. -/
theorem copy_short_kernels :
    (∃ fuel c, copy truncatedKernel fuel ⟨true, true⟩ = some c) ∧
      (∃ fuel c, copy truncatedKernel fuel ⟨false, false⟩ = some c) ∧
      ∀ flags, ¬ ∃ fuel c, copy pseudoKernel fuel flags = some c := by
  have htruncated (flags : Flags) := copy_short_iff truncatedKernel (by decide)
    truncatedKernel_moves (fun _ => rfl) rfl true [0, 0] rfl flags
  have hpseudo (flags : Flags) := copy_short_iff pseudoKernel (by decide) pseudoKernel_moves
    (fun _ => rfl) rfl true _ pseudoKernel_prepare flags
  refine ⟨(htruncated _).mpr (.inl ⟨rfl, rfl, ⟨0, by decide, rfl⟩, rfl⟩),
    (htruncated _).mpr (.inl ⟨rfl, rfl, ⟨0, by decide, rfl⟩, rfl⟩), fun flags h => ?_⟩
  rcases (hpseudo flags).mp h with ⟨_, _, _, hnone⟩ | ⟨_, _, hle⟩
  · rw [pseudoKernel.seekData_byStat rfl (by decide)] at hnone
    cases hnone
  · exact absurd hle (by decide)

end File
end DracutInstall

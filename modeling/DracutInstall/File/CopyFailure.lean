/-
What a copy that fails has written.

Which call fails says how far the copy has got: the target has not been opened, it
has been emptied, or bytes are being moved.  Where holes are told apart the target
has its whole length by then and every byte of it is in its place, so that a source
of zeros is there already; and `SEEK_DATA` finds nothing only behind the last data.
-/
import DracutInstall.File.CopyPlaced

namespace DracutInstall
namespace File

open Rust SparseFile

variable {k : Kernel}

/-- How far a copy has got. -/
inductive CopyStage where
  | opening
  | preparing
  | moving
  deriving DecidableEq, Repr

def CopyCall.stage : CopyCall → CopyStage
  | .openFrom | .notRegular | .openTo => .opening
  | .setPermissions | .fchown | .aclCopyFd | .ftruncate64 => .preparing
  | .seekData | .seekHole | .seekSet | .copyFileRange | .sendfile | .read | .writeAll => .moving

/-! ## The call that fails -/

theorem orFault_err {α : Type} {call : CopyCall} {fault : Option Errno}
    {f : Unit → Except CopyError α} {e : CopyError} (h : (orFault call fault >>= f) = .error e) :
    e.call = call ∨ f () = .error e := by
  cases fault with
  | none => exact .inr h
  | some errno =>
      cases h
      exact .inl rfl

theorem openFiles_err {e : CopyError} (h : openFiles k = .error e) : e.call.stage = .opening := by
  rw [openFiles] at h
  rcases orFault_err h with hcall | h
  · rw [hcall]
    rfl
  · split at h
    · cases h
      rfl
    · cases hto : k.setup.openTo with
      | none =>
          rw [hto] at h
          cases h
      | some errno =>
          rw [hto] at h
          cases h
          rfl

theorem prepare_err {e : CopyError} (h : prepare k = .error e) :
    e.call.stage = .preparing ∧ k.setup.destIsFile = true := by
  rw [prepare] at h
  split at h
  · rename_i hdest
    refine ⟨?_, hdest⟩
    rcases orFault_err h with hcall | h
    · rw [hcall]
      rfl
    rcases orFault_err h with hcall | h
    · rw [hcall]
      rfl
    rcases orFault_err h with hcall | h
    · rw [hcall]
      rfl
    split at h
    · cases h
    · split at h
      · cases h
      · cases h
        rfl
  · cases h

theorem nextExtent_err {st st' : CopyState} {e : CopyError}
    (h : nextExtent k st = (.error e, st')) :
    e.call.stage = .moving ∧ st'.dst = st.dst ∧ (e.call = .seekData → st.srcpos ≠ 0 ∧
      ∃ st₁, seekExtent k k.seekData st.srcpos st = (.error e.errno, st₁)) := by
  unfold nextExtent at h
  split at h
  · rename_i hpos
    split at h
    · split at h
      · rename_i errno st₁ hdata
        cases h
        refine ⟨rfl, ?_, fun _ => ⟨hpos, _, hdata⟩⟩
        rw [seekExtent_err hdata]
      · rename_i beg st₁ hdata
        obtain ⟨_, rfl⟩ := seekExtent_ok hdata
        dsimp only at h
        split at h
        · rename_i errno st₂ hhole
          cases h
          refine ⟨rfl, ?_, fun hcall => by cases hcall⟩
          rw [seekExtent_err hhole]
        · cases h
    · cases h
  · cases h

theorem copyFileRangeFailed_done {errno : Errno} {st st' : CopyState} {e : CopyError}
    (h : copyFileRangeFailed errno st = .done e st') : e.call = .copyFileRange ∧ st' = st := by
  unfold copyFileRangeFailed at h
  split at h
  · cases h
  · split at h
    · cases h
    · cases h
      exact ⟨rfl, rfl⟩

theorem copyFileRange_done {st st' : CopyState} {e : CopyError}
    (h : copyFileRange k st = .done e st') : e.call = .copyFileRange ∧ st'.dst = st.dst := by
  unfold copyFileRange at h
  split at h
  · cases h
  · obtain ⟨hcall, rfl⟩ := copyFileRangeFailed_done h
    exact ⟨hcall, rfl⟩
  · obtain ⟨hcall, rfl⟩ := copyFileRangeFailed_done h
    exact ⟨hcall, rfl⟩

theorem sendfileFailed_done {errno : Errno} {st st' : CopyState} {e : CopyError}
    (h : sendfileFailed errno st = .done e st') : e.call = .sendfile ∧ st' = st := by
  unfold sendfileFailed at h
  split at h
  · cases h
  · split at h
    · cases h
    · cases h
      exact ⟨rfl, rfl⟩

theorem sendfileHere_done {st st' : CopyState} {e : CopyError}
    (h : sendfileHere k st = .done e st') : e.call = .sendfile ∧ st'.dst = st.dst := by
  unfold sendfileHere at h
  split at h
  · cases h
  · obtain ⟨hcall, rfl⟩ := sendfileFailed_done h
    exact ⟨hcall, rfl⟩
  · obtain ⟨hcall, rfl⟩ := sendfileFailed_done h
    exact ⟨hcall, rfl⟩

theorem seekOut_dst {off : Int} {st st' : CopyState} {r : Except Errno Unit}
    (h : seekOut k off st = (r, st')) : st'.dst = st.dst := by
  rw [seekOut] at h
  dsimp only at h
  split at h
  · cases h
    rfl
  · cases h
    rfl

theorem seekIn_dst {off : Int} {st st' : CopyState} {r : Except Errno Unit}
    (h : seekIn k off st = (r, st')) : st'.dst = st.dst := by
  rw [seekIn] at h
  dsimp only at h
  split at h
  · cases h
    rfl
  · cases h
    rfl

theorem sendfile_done {st st' : CopyState} {e : CopyError} (h : sendfile k st = .done e st') :
    e.call.stage = .moving ∧ e.call ≠ .seekData ∧ st'.dst = st.dst := by
  unfold sendfile at h
  split at h
  · split at h
    · rename_i errno st₁ hseek
      cases h
      exact ⟨rfl, nofun, seekOut_dst hseek⟩
    · rename_i st₁ hseek
      obtain ⟨hcall, hdst⟩ := sendfileHere_done h
      rw [hcall, hdst]
      exact ⟨rfl, nofun, seekOut_dst hseek⟩
  · obtain ⟨hcall, hdst⟩ := sendfileHere_done h
    rw [hcall, hdst]
    exact ⟨rfl, nofun, rfl⟩

theorem seekBoth_dst {st st' : CopyState} {r : Except Errno Unit}
    (h : seekBoth k st = (r, st')) : st'.dst = st.dst := by
  unfold seekBoth at h
  split at h
  · split at h
    · rename_i e st₁ hin
      cases h
      exact seekIn_dst hin
    · rename_i st₁ hin
      split at h
      · exact (seekOut_dst h).trans (seekIn_dst hin)
      · cases h
        exact seekIn_dst hin
  · cases h
    rfl

theorem seekBoth_posIn {st st' : CopyState} (hs : st.canHandleSparse = true)
    (h : seekBoth k st = (.ok (), st')) : st'.posIn = st.nextBeg.toNat := by
  unfold seekBoth at h
  rw [if_pos hs, seekIn] at h
  dsimp only at h
  split at h
  · cases h
  · rename_i st₁ hin
    split at hin
    · cases hin
    · cases hin
      split at h
      · rw [seekOut] at h
        dsimp only at h
        split at h
        · cases h
        · cases h
          rfl
      · cases h
        rfl

/-- The inner loop writes within the file, at the place it reads from. -/
theorem readWriteLoop_err {fuel : Nat} {written : Int} {st st' : CopyState} {e : CopyError}
    (h : readWriteLoop k fuel written st = some (.error e, st')) :
    e.call.stage = .moving ∧ e.call ≠ .seekData ∧ (st.posIn = st.posOut →
      st.posIn ≤ k.source.size → st.dst.length = k.source.size →
        st'.dst.length = k.source.size) := by
  induction fuel generalizing written st with
  | zero => cases h
  | succ fuel ih =>
      rw [readWriteLoop] at h
      split at h
      · dsimp only at h
        split at h
        · rename_i n _
          split at h
          · cases h
          · obtain ⟨hstage, hne, hlength⟩ := ih h
            refine ⟨hstage, hne, fun hsame hle hlen => ?_⟩
            have hfits : st.posIn + k.count st.posIn (min st.nextLen.toNat defaultBufSize) n ≤
                k.source.size := by
              unfold Kernel.count
              omega
            have hwrite := @writeAt_length st.dst (slice k.source.content st.posIn
              (k.count st.posIn (min st.nextLen.toNat defaultBufSize) n)) st.posOut (by omega)
            rw [slice_length hfits] at hwrite
            apply hlength
            · show st.posIn + _ = st.posOut + _
              rw [hsame]
            · exact hfits
            · exact hwrite.trans (by omega)
        · split at h
          · obtain ⟨hstage, hne, hlength⟩ := ih h
            exact ⟨hstage, hne, hlength⟩
          · cases h
            exact ⟨rfl, fun hdata => (by cases hdata), fun _ _ hlen => hlen⟩
        · rename_i n w errno _
          cases h
          refine ⟨rfl, fun hdata => (by cases hdata), fun hsame hle hlen => ?_⟩
          have hfits : st.posIn + min w (k.count st.posIn (min st.nextLen.toNat defaultBufSize) n) ≤
              k.source.size := by
            unfold Kernel.count
            omega
          have hwrite := @writeAt_length st.dst (slice k.source.content st.posIn
            (min w (k.count st.posIn (min st.nextLen.toNat defaultBufSize) n))) st.posOut (by omega)
          rw [slice_length hfits] at hwrite
          exact hwrite.trans (by omega)
      · cases h

theorem readWrite_done {fuel : Nat} {st st' : CopyState} {e : CopyError}
    (h : readWrite k fuel st = some (.done e st')) :
    e.call.stage = .moving ∧ e.call ≠ .seekData := by
  unfold readWrite at h
  split at h
  · cases h
    exact ⟨rfl, nofun⟩
  · split at h
    · cases h
    · rename_i e' st₂ hloop
      cases h
      exact ⟨(readWriteLoop_err hloop).1, (readWriteLoop_err hloop).2.1⟩
    · cases h

theorem round_done {fuel : Nat} {st st' : CopyState} {e : CopyError}
    (h : round k fuel st = some (.done e st')) :
    e.call.stage = .moving ∧ (e.call = .seekData → nextExtent k st = (.error e, st')) := by
  unfold round at h
  split at h
  · rename_i e' st₁ hext
    cases h
    exact ⟨(nextExtent_err hext).1, fun _ => hext⟩
  · split at h
    · cases h
    · split at h
      · obtain ⟨hcall, _⟩ := copyFileRange_done (Option.some.inj h)
        rw [hcall]
        exact ⟨rfl, fun hdata => by cases hdata⟩
      · split at h
        · obtain ⟨hstage, hne, _⟩ := sendfile_done (Option.some.inj h)
          exact ⟨hstage, fun hdata => absurd hdata hne⟩
        · obtain ⟨hstage, hne⟩ := readWrite_done h
          exact ⟨hstage, fun hdata => absurd hdata hne⟩

theorem copyLoop_err {fuel : Nat} {st st' : CopyState} {e : CopyError}
    (h : copyLoop k fuel st = some (.error e, st')) : e.call.stage = .moving := by
  induction fuel generalizing st with
  | zero => cases h
  | succ fuel ih =>
      rw [copyLoop] at h
      split at h
      · split at h
        · cases h
        · exact ih h
        · rename_i e' st₁ hround
          cases h
          exact (round_done hround).1
      · cases h

/-- How a copy fails, by the stage of the call. -/
inductive CopyFails (k : Kernel) (fuel : Nat) (flags : Flags) (e : CopyError) (c : Copied) : Prop
  | opening (hopen : openFiles k = .error e) (hstage : e.call.stage = .opening)
      (hdst : c.dst = none)
  | preparing (hopen : openFiles k = .ok ()) (hdest : k.setup.destIsFile = true)
      (hstage : e.call.stage = .preparing) (hdst : c.dst = some [])
  | moving {sparse : Bool} {dst : List UInt8} {st : CopyState} (hopen : openFiles k = .ok ())
      (hprepare : prepare k = .ok (sparse, dst)) (hstage : e.call.stage = .moving)
      (hloop : copyLoop k fuel (firstExtent k (opened flags sparse dst)) = some (.error e, st))
      (hdst : c.dst = some st.dst)

theorem copy_failed {fuel : Nat} {flags : Flags} {e : CopyError} {c : Copied}
    (h : copy k fuel flags = some c) (he : c.result = .error e) : CopyFails k fuel flags e c := by
  unfold copy at h
  split at h
  · rename_i e' hopen
    cases h
    cases he
    exact .opening hopen (openFiles_err hopen) rfl
  · rename_i hopen
    split at h
    · rename_i e' hprepare
      cases h
      cases he
      obtain ⟨hstage, hdest⟩ := prepare_err hprepare
      exact .preparing hopen hdest hstage rfl
    · rename_i sparse dst hprepare
      split at h
      · cases h
      · rename_i result st hloop
        cases h
        cases he
        exact .moving hopen hprepare (copyLoop_err hloop) hloop rfl

/-! ## The last round -/

/-- The round that fails starts like any other. -/
theorem copyLoop_lastRound (hlen : k.len = k.source.size) {fuel pos : Nat} {st st' : CopyState}
    {e : CopyError} (h : Inv k.seeking pos st) (ht : Tracked k st.srcpos st)
    (hn : copyLoop k fuel st = some (.error e, st')) :
    ∃ fuel' pos' st₁, Inv k.seeking pos' st₁ ∧ Tracked k st₁.srcpos st₁ ∧ pos' < k.source.size ∧
      round k fuel' st₁ = some (.done e st') := by
  induction fuel generalizing pos st with
  | zero => cases hn
  | succ fuel ih =>
      have hsrcpos := h.srcpos
      rw [copyLoop] at hn
      split at hn
      · rename_i hlt
        have hpos : pos < k.source.size := by omega
        split at hn
        · cases hn
        · rename_i st₁ hround
          obtain ⟨pos', h'⟩ := round_inv (fun _ => rfl) (k.seeking.seekEnd_eq fun _ => hlen) h
            (fun _ _ hs _ => .inr (hs.trans ht.sparse)) hpos (round_seeking hround)
          exact ih h' (round_tracked ht hround) hn
        · rename_i e' st₁ hround
          cases hn
          exact ⟨fuel, pos, st, h, ht, hpos, hround⟩
      · cases hn

theorem Inv.length {pos : Nat} {st : CopyState} (h : Inv k pos st)
    (hs : st.canHandleSparse = true) : st.dst.length = k.source.size :=
  h.content.length.resolve_right fun hno => nomatch hs.symm.trans hno.1

theorem round_failed_length (hlen : k.len = k.source.size) {fuel pos : Nat} {st st' : CopyState}
    {e : CopyError} (h : Inv k.seeking pos st) (ht : Tracked k st.srcpos st)
    (hlt : pos < k.source.size) (hn : round k fuel st = some (.done e st')) :
    st'.dst.length = k.source.size := by
  have hlength : st.dst.length = k.source.size := h.length ht.sparse
  unfold round at hn
  split at hn
  · rename_i e' st₁ hext
    cases hn
    rw [(nextExtent_err hext).2.1]
    exact hlength
  · rename_i st₁ hext
    have hplacing := (nextExtent_placing ht hext).2 rfl
    obtain ⟨_, h₁, beg, len, he⟩ := nextExtent_inv (k.seeking.seekEnd_eq fun _ => hlen) h hlt
      (nextExtent_seeking hext)
    have hlength₁ : st₁.dst.length = k.source.size := h₁.length hplacing.tracked.sparse
    split at hn
    · cases hn
    · split at hn
      · rw [(copyFileRange_done (Option.some.inj hn)).2]
        exact hlength₁
      · split at hn
        · rw [(sendfile_done (Option.some.inj hn)).2.2]
          exact hlength₁
        · unfold readWrite at hn
          split at hn
          · rename_i errno st₂ hseek
            cases hn
            rw [seekBoth_dst hseek]
            exact hlength₁
          · rename_i st₂ hseek
            have hreading := (seekBoth_tracked hplacing hseek).2 rfl
            have hin : st₂.posIn = beg := by
              rw [seekBoth_posIn hplacing.tracked.sparse hseek, he.beg_toNat]
            have hbeg : beg < k.source.size := he.lt
            split at hn
            · cases hn
            · rename_i e' st₃ hloop
              cases hn
              refine (readWriteLoop_err hloop).2.2 hreading.posIn (by omega) ?_
              rw [seekBoth_dst hseek]
              exact hlength₁
            · cases hn

/-- No data is left when `SEEK_DATA` reports so. -/
theorem round_failed_noData (hlen : k.len = k.source.size) {fuel pos : Nat} {st st' : CopyState}
    (h : Inv k.seeking pos st) (ht : Tracked k st.srcpos st)
    (hseeks : ∀ n, k.seekFault n = none)
    (hn : round k fuel st = some (.done ⟨.seekData, .enxio⟩ st')) :
    st'.dst = k.source.content := by
  have hext := (round_done hn).2 rfl
  obtain ⟨_, hdst, hseek⟩ := nextExtent_err hext
  obtain ⟨_, st₁, hseek⟩ := hseek rfl
  have hle : pos ≤ k.source.size := h.le
  rw [h.srcpos, seekExtent_eq hseeks] at hseek
  have hnone : k.seekData pos = none := by
    split at hseek
    · split at hseek
      · cases hseek
      · assumption
    · cases hseek
  have hgap := SparseFile.File.seekData_eq_none.mp hnone
  rw [k.seekEnd_eq fun _ => hlen] at hgap
  rw [hdst]
  have hskip : Content k.seeking st.canHandleSparse k.source.size st.dst :=
    h.content.skip hle fun r h1 h2 => ⟨ht.sparse, hgap r h1 h2⟩
  exact hskip.eq

/-- A copy that tells holes apart and fails while it moves bytes has written the source if
the source is zeros, or if `SEEK_DATA` has found nothing more. -/
theorem copyLoop_failed_content (hk : k.KeepsHoles) (hlen : k.len = k.source.size) {fuel : Nat}
    {flags : Flags} {st : CopyState} {e : CopyError}
    (hloop : copyLoop k fuel (firstExtent k (opened flags true (List.replicate k.len 0))) =
      some (.error e, st))
    (hwhole : (∀ b ∈ k.source.content, b = 0) ∨
      (e = ⟨.seekData, .enxio⟩ ∧ ∀ n, k.seekFault n = none)) :
    st.dst = k.source.content := by
  obtain ⟨beg, stop, hfirst, hstart⟩ := hk.start flags (List.replicate k.len 0)
  have htracked := sparseStart_tracked (k := k) flags beg stop
  have hinv := sparseStart_inv flags (k.seeking.seekEnd_eq fun _ => hlen) hfirst
  rw [hstart] at hloop
  rw [hlen] at hloop htracked
  obtain ⟨fuel', pos, st₁, h, ht, hlt, hround⟩ := copyLoop_lastRound hlen hinv htracked hloop
  rcases hwhole with hzeros | ⟨rfl, hseeks⟩
  · have hlength := round_failed_length hlen h ht hlt hround
    have hplaced : Placed k.source.content st.dst := round_tracked ht hround
    have hdst : ∀ b ∈ st.dst, b = 0 := by
      intro b hb
      obtain ⟨p, hp⟩ := List.mem_iff_getElem?.mp hb
      rcases hplaced p b hp with hzero | hsource
      · exact hzero
      · exact hzeros b (List.mem_of_getElem? hsource)
    rw [List.eq_replicate_of_mem hdst, List.eq_replicate_of_mem hzeros, hlength]
    rfl
  · exact round_failed_noData hlen h ht hseeks hround

end File
end DracutInstall

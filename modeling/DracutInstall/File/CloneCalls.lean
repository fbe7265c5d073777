/-
The calls of a run of `clone_path`, whatever the run ends in.

`AtEntry` is a call that has come to its branch: its target was not there, its
parent has been cloned and the permissions are relaxed.  `StepEnds` and
`EntryEnds` say how a call can end and in which world, `Nested` which calls are
made in the course of another.  `clonePath_keeps` carries a property through a
run in which each copy keeps it.
-/
import DracutInstall.File.CloneRuns

namespace DracutInstall
namespace File

open Rust Process UnixPath FileTree

variable {env : Env} {root : OsString}

/-! ## System calls -/

/-- A line has been written. -/
def World.line (w : World) (l : Line) : World := { w with log := w.log ++ [l] }

/-- A system call comes back. -/
theorem call_returns (env : Env) {α : Type} (made : List Made) (f : Tree → Except Errno (α × Tree))
    (w : World) : ∃ r w', call env made f w = some (.ok r, w') := by
  rw [call]
  dsimp only
  split
  · exact ⟨_, _, rfl⟩
  · split
    · exact ⟨_, _, rfl⟩
    · exact ⟨_, _, rfl⟩

theorem ask_returns (env : Env) {α : Type} (f : Tree → Except Errno α) (w : World) :
    ∃ r w', ask env f w = some (.ok r, w') := call_returns env [] _ w

theorem change_returns (env : Env) (made : List Made) (f : Tree → Except Errno Tree) (w : World) :
    ∃ r w', change env made f w = some (.ok r, w') := call_returns env made _ w

/-- A system call does not end but with its answer. -/
theorem ask_ends {α : Type} {f : Tree → Except Errno α} {w w' : World}
    {r : Outcome CloneError (Except Errno α)} (h : ask env f w = some (r, w')) : ∃ a, r = .ok a := by
  obtain ⟨a, w₁, heq⟩ := ask_returns env f w
  rw [heq] at h
  cases h
  exact ⟨a, rfl⟩

theorem change_ends {made : List Made} {f : Tree → Except Errno Tree} {w w' : World}
    {r : Outcome CloneError (Except Errno Unit)} (h : change env made f w = some (r, w')) :
    ∃ a, r = .ok a := by
  obtain ⟨a, w₁, heq⟩ := change_returns env made f w
  rw [heq] at h
  cases h
  exact ⟨a, rfl⟩

/-- What comes behind a system call. -/
theorem ask_bind {α β : Type} {f : Tree → Except Errno α} {g : Except Errno α → Run β}
    {w w' : World} {r : Outcome CloneError β} (h : (ask env f >>= g) w = some (r, w')) :
    ∃ a w₁, ask env f w = some (.ok a, w₁) ∧ g a w₁ = some (r, w') := by
  rcases bind_eq_some.mp h with ⟨a, w₁, ha, hg⟩ | ⟨e, ha, _⟩ | ⟨ha, _⟩
  · exact ⟨a, w₁, ha, hg⟩
  · obtain ⟨a, heq⟩ := ask_ends ha
    cases heq
  · obtain ⟨a, heq⟩ := ask_ends ha
    cases heq

theorem change_bind {β : Type} {made : List Made} {f : Tree → Except Errno Tree}
    {g : Except Errno Unit → Run β} {w w' : World} {r : Outcome CloneError β}
    (h : (change env made f >>= g) w = some (r, w')) :
    ∃ a w₁, change env made f w = some (.ok a, w₁) ∧ g a w₁ = some (r, w') := by
  rcases bind_eq_some.mp h with ⟨a, w₁, ha, hg⟩ | ⟨e, ha, _⟩ | ⟨ha, _⟩
  · exact ⟨a, w₁, ha, hg⟩
  · obtain ⟨a, heq⟩ := change_ends ha
    cases heq
  · obtain ⟨a, heq⟩ := change_ends ha
    cases heq

theorem eprintln_bind {β : Type} {l : Line} {g : Unit → Run β} {w w' : World}
    {r : Outcome CloneError β} (h : (eprintln l >>= g) w = some (r, w')) :
    g () (w.line l) = some (r, w') := h

/-- A copy comes back with its result, if it ends. -/
theorem copyFile_ends {fuel : Nat} {source target : OsString} {w w' : World}
    {r : Outcome CloneError (Except CopyError Unit)}
    (h : copyFile env fuel source target w = some (r, w')) : ∃ a, r = .ok a := by
  rw [copyFile] at h
  dsimp only at h
  split at h
  · cases h
  · split at h
    · cases h
      exact ⟨_, rfl⟩
    · cases h
      exact ⟨_, rfl⟩

theorem copyFile_bind {β : Type} {fuel : Nat} {source target : OsString}
    {g : Except CopyError Unit → Run β} {w w' : World} {r : Outcome CloneError β}
    (h : (copyFile env fuel source target >>= g) w = some (r, w')) :
    ∃ a w₁, copyFile env fuel source target w = some (.ok a, w₁) ∧ g a w₁ = some (r, w') := by
  rcases bind_eq_some.mp h with ⟨a, w₁, ha, hg⟩ | ⟨e, ha, _⟩ | ⟨ha, _⟩
  · exact ⟨a, w₁, ha, hg⟩
  · obtain ⟨a, heq⟩ := copyFile_ends ha
    cases heq
  · obtain ⟨a, heq⟩ := copyFile_ends ha
    cases heq

/-! ## One call -/

variable {clone : OsString → Run Unit} {fuel : Nat} {source target : OsString}

/-- A call has looked for its target, and not found it. -/
def Missing (env : Env) (root source : OsString) (w w₁ : World) : Prop :=
  ∃ e, symlinkMetadata env (targetOf root source)
    (w.line (.clonePath source (targetOf root source))) = some (.ok (.error e), w₁)

/-- A call has come to its branch: `n` is the entry it clones, `before` the world in
which the permissions are relaxed. -/
inductive AtEntry (env : Env) (root : OsString) (clone : OsString → Run Unit) (source : OsString)
    (w : World) (n : Node) (before : World) (relaxed : Option (OsString × Nat)) (after : World) :
    Prop
  | intro {dir w₁ w₂} (hmissing : Missing env root source w w₁) (hparent : parent source = some dir)
      (hclone : clone dir w₁ = some (.ok (), w₂))
      (hstatus : symlinkMetadata env source w₂ = some (.ok (.ok n), before))
      (hrelax : relax env (targetOf root source) before = some (.ok relaxed, after))

/-- How a branch ends: with an error or an unwinding that leaves the call, or with the
result that is kept. -/
inductive EntryEnds (env : Env) (root : OsString) (clone : OsString → Run Unit) (fuel : Nat)
    (source target : OsString) (n : Node) (w : World) :
    Outcome CloneError (Except CloneError Unit) → World → Prop
  | unread {e w'} (hlink : n.isLink = true)
      (hread : readLink env source w = some (.ok (.error e), w')) :
      EntryEnds env root clone fuel source target n w (.err (.readLink e)) w'
  | failed {text e w₁ w'} (hlink : n.isLink = true)
      (hread : readLink env source w = some (.ok (.ok text), w₁))
      (hclone : clone (linkPath source text) w₁ = some (.err e, w')) :
      EntryEnds env root clone fuel source target n w (.err e) w'
  | unwound {text w₁ w'} (hlink : n.isLink = true)
      (hread : readLink env source w = some (.ok (.ok text), w₁))
      (hclone : clone (linkPath source text) w₁ = some (.panic, w')) :
      EntryEnds env root clone fuel source target n w .panic w'
  | link {text ret w₁ w₂ w'} (hlink : n.isLink = true)
      (hread : readLink env source w = some (.ok (.ok text), w₁))
      (hclone : clone (linkPath source text) w₁ = some (.ok (), w₂))
      (hmade : lnR env (targetOf root (linkPath source text)) target
        ((w₂.line (.clonePathSymlink (linkPath source text) target)).line
          (.lnRSymlink (targetOf root (linkPath source text)) target)) = some (.ok ret, w')) :
      EntryEnds env root clone fuel source target n w (.ok ret) w'
  | dir {ret w₁ w'} (hlink : n.isLink = false) (hdir : isDir env source w = some (.ok true, w₁))
      (hmade : createDir env target n.mode (w₁.line (.clonePathMkdir source target)) =
        some (.ok ret, w')) :
      EntryEnds env root clone fuel source target n w (.ok (ret.mapError .mkdir)) w'
  | file {ret w₁ w₂ w'} (hlink : n.isLink = false)
      (hdir : isDir env source w = some (.ok false, w₁))
      (hfile : isFile env source w₁ = some (.ok true, w₂))
      (hcopy : copyFile env fuel source target (w₂.line (.clonePathCopy source target)) =
        some (.ok ret, w')) :
      EntryEnds env root clone fuel source target n w (.ok (ret.mapError .copy)) w'
  | other {w₁ w'} (hlink : n.isLink = false) (hdir : isDir env source w = some (.ok false, w₁))
      (hfile : isFile env source w₁ = some (.ok false, w')) :
      EntryEnds env root clone fuel source target n w .panic w'

/-- `Ok` or `Err`. -/
def outcomeOf {α : Type} : Except CloneError α → Outcome CloneError α
  | .ok a => .ok a
  | .error e => .err e

/-- How a call ends. -/
inductive StepEnds (env : Env) (root : OsString) (clone : OsString → Run Unit) (fuel : Nat)
    (source : OsString) (w : World) : Outcome CloneError Unit → World → Prop
  | found {n w'} (hfound : symlinkMetadata env (targetOf root source)
        (w.line (.clonePath source (targetOf root source))) = some (.ok (.ok n), w')) :
      StepEnds env root clone fuel source w (.ok ()) w'
  | top {w'} (hmissing : Missing env root source w w') (hparent : parent source = none) :
      StepEnds env root clone fuel source w (.ok ()) w'
  | parentFailed {dir e w₁ w'} (hmissing : Missing env root source w w₁)
      (hparent : parent source = some dir) (hclone : clone dir w₁ = some (.err e, w')) :
      StepEnds env root clone fuel source w (.err e) w'
  | parentUnwound {dir w₁ w'} (hmissing : Missing env root source w w₁)
      (hparent : parent source = some dir) (hclone : clone dir w₁ = some (.panic, w')) :
      StepEnds env root clone fuel source w .panic w'
  | noSource {dir e w₁ w₂ w'} (hmissing : Missing env root source w w₁)
      (hparent : parent source = some dir) (hclone : clone dir w₁ = some (.ok (), w₂))
      (hstatus : symlinkMetadata env source w₂ = some (.ok (.error e), w')) :
      StepEnds env root clone fuel source w (.err (.sourceMetadata e)) w'
  | notRelaxed {dir n e w₁ w₂ w₃ w'} (hmissing : Missing env root source w w₁)
      (hparent : parent source = some dir) (hclone : clone dir w₁ = some (.ok (), w₂))
      (hstatus : symlinkMetadata env source w₂ = some (.ok (.ok n), w₃))
      (hrelax : relax env (targetOf root source) w₃ = some (.err e, w')) :
      StepEnds env root clone fuel source w (.err e) w'
  | left {n before relaxed after e w'}
      (hentry : AtEntry env root clone source w n before relaxed after)
      (hends : EntryEnds env root clone fuel source (targetOf root source) n after (.err e) w') :
      StepEnds env root clone fuel source w (.err e) w'
  | unwound {n before relaxed after w'}
      (hentry : AtEntry env root clone source w n before relaxed after)
      (hends : EntryEnds env root clone fuel source (targetOf root source) n after .panic w') :
      StepEnds env root clone fuel source w .panic w'
  | notRestored {n before relaxed after ret e w₁ w'}
      (hentry : AtEntry env root clone source w n before relaxed after)
      (hends : EntryEnds env root clone fuel source (targetOf root source) n after (.ok ret) w₁)
      (hrestore : restore env relaxed w₁ = some (.err e, w')) :
      StepEnds env root clone fuel source w (.err e) w'
  | done {n before relaxed after ret w₁ w'}
      (hentry : AtEntry env root clone source w n before relaxed after)
      (hends : EntryEnds env root clone fuel source (targetOf root source) n after (.ok ret) w₁)
      (hrestore : restore env relaxed w₁ = some (.ok (), w')) :
      StepEnds env root clone fuel source w (outcomeOf ret) w'

theorem orFail_ends {α δ : Type} {context : δ → CloneError} {x : Except δ α} {w w' : World}
    {r : Outcome CloneError α} (h : (orFail context x : Run α) w = some (r, w')) :
    w' = w ∧ r = outcomeOf (x.mapError context) := by
  cases x with
  | ok a =>
      cases h
      exact ⟨rfl, rfl⟩
  | error e =>
      cases h
      exact ⟨rfl, rfl⟩

theorem orFail_ne_panic {α δ : Type} {context : δ → CloneError} {x : Except δ α} {w w' : World} :
    (orFail context x : Run α) w ≠ some (.panic, w') := by
  cases x with
  | ok a => exact fun h => by cases h
  | error e => exact fun h => by cases h

theorem restore_ne_panic {relaxed : Option (OsString × Nat)} {w w' : World} :
    restore env relaxed w ≠ some (.panic, w') := by
  intro h
  cases relaxed with
  | none => cases h
  | some perms =>
      obtain ⟨a, w₁, _, h⟩ := change_bind h
      exact orFail_ne_panic h

theorem relax_ne_panic {w w' : World} : relax env target w ≠ some (.panic, w') := by
  intro h
  rw [relax] at h
  cases hdir : parent target with
  | none =>
      rw [hdir] at h
      cases h
  | some dir =>
      rw [hdir] at h
      obtain ⟨a, w₁, _, h₁⟩ := ask_bind h
      cases a with
      | error e => cases h₁
      | ok n =>
          dsimp only at h₁
          split at h₁
          · obtain ⟨a, w₂, _, h₂⟩ := change_bind h₁
            rcases bind_eq_some.mp h₂ with ⟨u, w₃, _, h₃⟩ | ⟨e, _, hr⟩ | ⟨hfail, _⟩
            · cases h₃
            · cases hr
            · exact orFail_ne_panic hfail
          · cases h₁

theorem isDir_ends {p : OsString} {w w' : World} {r : Outcome CloneError Bool}
    (h : isDir env p w = some (r, w')) : ∃ b, r = .ok b := by
  obtain ⟨a, w₁, _, h⟩ := ask_bind h
  exact ⟨_, (pure_eq_some.mp h).1⟩

theorem isFile_ends {p : OsString} {w w' : World} {r : Outcome CloneError Bool}
    (h : isFile env p w = some (r, w')) : ∃ b, r = .ok b := by
  obtain ⟨a, w₁, _, h⟩ := ask_bind h
  exact ⟨_, (pure_eq_some.mp h).1⟩

theorem lnR_ends {path : OsString} {w w' : World} {r : Outcome CloneError (Except CloneError Unit)}
    (h : lnR env path target w = some (r, w')) : ∃ ret, r = .ok ret := by
  rw [lnR] at h
  cases htext : convertAbsRel path target with
  | none =>
      rw [htext] at h
      exact ⟨_, (pure_eq_some.mp h).1⟩
  | some text =>
      rw [htext] at h
      obtain ⟨a, w₁, _, h⟩ := change_bind h
      exact ⟨_, (pure_eq_some.mp h).1⟩

theorem cloneLink_ends {n : Node} {w w' : World}
    {r : Outcome CloneError (Except CloneError Unit)} (hlink : n.isLink = true)
    (h : cloneLink env root clone source target w = some (r, w')) :
    EntryEnds env root clone fuel source target n w r w' := by
  obtain ⟨answer, w₁, hread, h₁⟩ := ask_bind h
  cases answer with
  | error e =>
      cases h₁
      exact .unread hlink hread
  | ok text =>
      rcases bind_eq_some.mp h₁ with ⟨text', w₂, hfail, h₂⟩ | ⟨e, hfail, _⟩ | ⟨hfail, _⟩
      · obtain ⟨rfl, heq⟩ := orFail_ends hfail
        obtain rfl := Outcome.ok.inj heq
        rcases bind_eq_some.mp h₂ with ⟨u, w₃, hclone, h₃⟩ | ⟨e, hclone, hr⟩ | ⟨hclone, hr⟩
        · have hln := eprintln_bind (eprintln_bind h₃)
          obtain ⟨ret, rfl⟩ := lnR_ends hln
          exact .link hlink hread hclone hln
        · rw [hr]
          exact .failed hlink hread hclone
        · rw [hr]
          exact .unwound hlink hread hclone
      · cases hfail
      · cases hfail

theorem cloneEntry_ends {n : Node} {w w' : World}
    {r : Outcome CloneError (Except CloneError Unit)}
    (h : cloneEntry env root clone fuel source target n w = some (r, w')) :
    EntryEnds env root clone fuel source target n w r w' := by
  rw [cloneEntry] at h
  cases hlink : n.isLink with
  | true =>
      rw [hlink, if_pos rfl] at h
      exact cloneLink_ends hlink h
  | false =>
      rw [hlink, if_neg Bool.false_ne_true] at h
      rcases bind_eq_some.mp h with ⟨b, w₁, hdir, h₁⟩ | ⟨e, hdir, _⟩ | ⟨hdir, _⟩
      · cases b with
        | true =>
            obtain ⟨ret, w₂, hmade, h₂⟩ := change_bind (eprintln_bind h₁)
            obtain ⟨rfl, rfl⟩ := pure_eq_some.mp h₂
            exact .dir hlink hdir hmade
        | false =>
            rcases bind_eq_some.mp h₁ with ⟨b, w₂, hfile, h₂⟩ | ⟨e, hfile, _⟩ | ⟨hfile, _⟩
            · cases b with
              | true =>
                  obtain ⟨ret, w₃, hcopy, h₃⟩ := copyFile_bind (eprintln_bind h₂)
                  obtain ⟨rfl, rfl⟩ := pure_eq_some.mp h₃
                  exact .file hlink hdir hfile hcopy
              | false =>
                  cases h₂
                  exact .other hlink hdir hfile
            · obtain ⟨b, heq⟩ := isFile_ends hfile
              cases heq
            · obtain ⟨b, heq⟩ := isFile_ends hfile
              cases heq
      · obtain ⟨b, heq⟩ := isDir_ends hdir
        cases heq
      · obtain ⟨b, heq⟩ := isDir_ends hdir
        cases heq

theorem cloneStep_ends {w w' : World} {r : Outcome CloneError Unit}
    (h : cloneStep env root clone fuel source w = some (r, w')) :
    StepEnds env root clone fuel source w r w' := by
  obtain ⟨answer, w₁, hask, h₁⟩ := ask_bind (eprintln_bind h)
  cases answer with
  | ok n =>
      obtain ⟨rfl, rfl⟩ := pure_eq_some.mp h₁
      exact .found hask
  | error e =>
      have hmissing : Missing env root source w w₁ := ⟨e, hask⟩
      cases hparent : parent source with
      | none =>
          rw [hparent] at h₁
          obtain ⟨rfl, rfl⟩ := pure_eq_some.mp h₁
          exact .top hmissing hparent
      | some dir =>
          rw [hparent] at h₁
          rcases bind_eq_some.mp h₁ with ⟨u, w₂, hclone, h₂⟩ | ⟨e, hclone, hr⟩ | ⟨hclone, hr⟩
          swap
          · rw [hr]
            exact .parentFailed hmissing hparent hclone
          swap
          · rw [hr]
            exact .parentUnwound hmissing hparent hclone
          obtain ⟨answer, w₃, hstatus, h₃⟩ := ask_bind h₂
          cases answer with
          | error e =>
              cases h₃
              exact .noSource hmissing hparent hclone hstatus
          | ok n =>
              have h₄ : (relax env (targetOf root source) >>= fun relaxed =>
                  cloneEntry env root clone fuel source (targetOf root source) n >>= fun ret =>
                    restore env relaxed >>= fun _ => orFail id ret) w₃ = some (r, w') := h₃
              rcases bind_eq_some.mp h₄ with ⟨relaxed, w₄, hrelax, h₅⟩ | ⟨e, hrelax, hr⟩ |
                ⟨hrelax, _⟩
              · have hentry : AtEntry env root clone source w n w₃ relaxed w₄ :=
                  .intro hmissing hparent hclone hstatus hrelax
                rcases bind_eq_some.mp h₅ with ⟨ret, w₅, hends, h₆⟩ | ⟨e, hends, hr⟩ | ⟨hends, hr⟩
                · rcases bind_eq_some.mp h₆ with ⟨u, w₆, hrestore, h₇⟩ | ⟨e, hrestore, hr⟩ |
                    ⟨hrestore, _⟩
                  · obtain ⟨rfl, hr⟩ := orFail_ends h₇
                    have hdone := StepEnds.done hentry (cloneEntry_ends hends) hrestore
                    rw [hr]
                    cases ret with
                    | ok u => exact hdone
                    | error e => exact hdone
                  · rw [hr]
                    exact .notRestored hentry (cloneEntry_ends hends) hrestore
                  · exact absurd hrestore restore_ne_panic
                · rw [hr]
                  exact .left hentry (cloneEntry_ends hends)
                · rw [hr]
                  exact .unwound hentry (cloneEntry_ends hends)
              · rw [hr]
                exact .notRelaxed hmissing hparent hclone hstatus hrelax
              · exact absurd hrelax relax_ne_panic

/-! ## Calls that end well -/

/-- A branch that ends well has done what its entry asks for. -/
theorem EntryEnds.ok {n : Node} {w w' : World}
    (h : EntryEnds env root clone fuel source target n w (.ok (.ok ())) w') :
    EntryOk env root clone fuel source target n w w' := by
  generalize hret : (Except.ok () : Except CloneError Unit) = ret at h
  cases h with
  | link hlink hread hclone hmade =>
      obtain rfl := hret
      obtain ⟨hsame, hok⟩ := ask_ok hread
      obtain ⟨rel, hrel, hlinked, hlog⟩ := lnR_ok hmade
      refine .link hlink (hok _ rfl) hsame hclone hrel hlinked ?_
      rw [hlog, World.line, World.line, List.append_assoc]
      rfl
  | dir hlink hdir hmade =>
      obtain rfl := mapError_eq_ok hret.symm
      obtain ⟨hsame, hok⟩ := isDir_ok hdir
      obtain ⟨d, hstatus, hd⟩ := hok rfl
      obtain ⟨hlog, htree⟩ := change_made hmade
      rw [World.line, hsame.tree] at htree
      rw [World.line, hsame.log] at hlog
      exact .dir hlink hstatus hd htree hlog
  | @file _ w₁ w₂ _ hlink hdir hfile hcopy =>
      obtain rfl := mapError_eq_ok hret.symm
      obtain ⟨hsame, _⟩ := isDir_ok hdir
      obtain ⟨hsame', hok⟩ := isFile_ok hfile
      obtain ⟨d, hstatus, hd⟩ := hok rfl
      rw [hsame.tree] at hstatus
      have hboth := hsame.trans hsame'
      have htree : (w₂.line (.clonePathCopy source target)).tree = w.tree := hboth.tree
      have hlog : (w₂.line (.clonePathCopy source target)).log =
          w.log ++ [.clonePathCopy source target] := by
        rw [World.line, hboth.log]
      exact .file hlink hstatus hd htree hlog hcopy

/-- The ways in which a call ends well. -/
inductive StepReturns (env : Env) (root : OsString) (clone : OsString → Run Unit) (fuel : Nat)
    (source : OsString) (w w' : World) : Prop
  | found {n} (hfound : symlinkMetadata env (targetOf root source)
        (w.line (.clonePath source (targetOf root source))) = some (.ok (.ok n), w'))
  | top (hmissing : Missing env root source w w') (hparent : parent source = none)
  | done {n before relaxed after w₁}
      (hentry : AtEntry env root clone source w n before relaxed after)
      (hends : EntryEnds env root clone fuel source (targetOf root source) n after
        (.ok (.ok ())) w₁)
      (hrestore : restore env relaxed w₁ = some (.ok (), w'))

theorem StepEnds.returns {w w' : World}
    (h : StepEnds env root clone fuel source w (.ok ()) w') :
    StepReturns env root clone fuel source w w' := by
  generalize hr : (Outcome.ok () : Outcome CloneError Unit) = r at h
  cases h with
  | found hfound => exact .found hfound
  | top hmissing hparent => exact .top hmissing hparent
  | @done n before relaxed after ret w₁ _ hentry hends hrestore =>
      obtain rfl : ret = .ok () := by
        cases ret with
        | ok u => rfl
        | error e => cases hr
      exact .done hentry hends hrestore
  | parentFailed _ _ _ => cases hr
  | parentUnwound _ _ _ => cases hr
  | noSource _ _ _ _ => cases hr
  | notRelaxed _ _ _ _ _ => cases hr
  | left _ _ => cases hr
  | unwound _ _ => cases hr
  | notRestored _ _ _ => cases hr

theorem StepEnds.ok {w w' : World} (h : StepEnds env root clone fuel source w (.ok ()) w') :
    StepOk env root clone fuel source w w' := by
  cases h.returns with
  | found hfound =>
      obtain ⟨hsame, hok⟩ := ask_ok hfound
      exact .found (hok _ rfl) hsame.tree hsame.log
  | top hmissing hparent =>
      obtain ⟨e, hask⟩ := hmissing
      obtain ⟨hsame, _⟩ := ask_ok hask
      exact .top hparent hsame.tree hsame.log
  | @done n before relaxed after w₁ hentry hends hrestore =>
      cases hentry with
      | intro hmissing hparent hclone hstatus hrelax =>
          obtain ⟨e, hask⟩ := hmissing
          obtain ⟨hsame, _⟩ := ask_ok hask
          obtain ⟨hsame', hok⟩ := ask_ok hstatus
          obtain ⟨hlog, halike⟩ := relax_ok hrelax
          obtain ⟨hlog', halike'⟩ := restore_ok hrestore
          rw [hsame'.tree] at halike
          exact .made hparent hsame.tree hsame.log hclone (hok n rfl) halike
            (hlog.trans hsame'.log) hends.ok halike' hlog'

/-! ## One way to end -/

theorem ends_unique {α : Type} {x : Option (Outcome CloneError α × World)}
    {r r' : Outcome CloneError α} {w w' : World} (h : x = some (r, w)) (h' : x = some (r', w')) :
    r = r' ∧ w = w' := Prod.mk.inj (Option.some.inj (h.symm.trans h'))

theorem Missing.not_found {n : Node} {w w₁ w₂ : World} (h : Missing env root source w w₁)
    (hfound : symlinkMetadata env (targetOf root source)
      (w.line (.clonePath source (targetOf root source))) = some (.ok (.ok n), w₂)) : False := by
  obtain ⟨e, hask⟩ := h
  have heq := (ends_unique hask hfound).1
  cases heq

theorem Missing.unique {w w₁ w₂ : World} (h : Missing env root source w w₁)
    (h' : Missing env root source w w₂) : w₁ = w₂ := by
  obtain ⟨e, hask⟩ := h
  obtain ⟨e', hask'⟩ := h'
  exact (ends_unique hask hask').2

/-- A call comes to one branch, in one world. -/
theorem AtEntry.unique {w before after before' after' : World} {n n' : Node}
    {relaxed relaxed' : Option (OsString × Nat)}
    (h : AtEntry env root clone source w n before relaxed after)
    (h' : AtEntry env root clone source w n' before' relaxed' after') :
    n = n' ∧ before = before' ∧ relaxed = relaxed' ∧ after = after' := by
  cases h with
  | intro hmissing hparent hclone hstatus hrelax =>
      cases h' with
      | intro hmissing' hparent' hclone' hstatus' hrelax' =>
          obtain rfl := hmissing.unique hmissing'
          obtain rfl := Option.some.inj (hparent.symm.trans hparent')
          obtain rfl := (ends_unique hclone hclone').2
          obtain ⟨hfound, rfl⟩ := ends_unique hstatus hstatus'
          obtain rfl := Except.ok.inj (Outcome.ok.inj hfound)
          obtain ⟨hdone, rfl⟩ := ends_unique hrelax hrelax'
          exact ⟨rfl, rfl, Outcome.ok.inj hdone, rfl⟩

/-- A call that comes to its branch ends behind it. -/
theorem AtEntry.ends {w before after w' : World} {n : Node}
    {relaxed : Option (OsString × Nat)} {r : Outcome CloneError Unit}
    (h : AtEntry env root clone source w n before relaxed after)
    (hends : StepEnds env root clone fuel source w r w') :
    (∃ e, r = .err e ∧
        EntryEnds env root clone fuel source (targetOf root source) n after (.err e) w') ∨
      (r = .panic ∧
        EntryEnds env root clone fuel source (targetOf root source) n after .panic w') ∨
      ∃ ret u, EntryEnds env root clone fuel source (targetOf root source) n after (.ok ret) u ∧
        ((∃ e, r = .err e ∧ restore env relaxed u = some (.err e, w')) ∨
          (r = outcomeOf ret ∧ restore env relaxed u = some (.ok (), w'))) := by
  cases hends with
  | left hentry hends =>
      obtain ⟨rfl, rfl, rfl, rfl⟩ := hentry.unique h
      exact .inl ⟨_, rfl, hends⟩
  | unwound hentry hends =>
      obtain ⟨rfl, rfl, rfl, rfl⟩ := hentry.unique h
      exact .inr (.inl ⟨rfl, hends⟩)
  | notRestored hentry hends hrestore =>
      obtain ⟨rfl, rfl, rfl, rfl⟩ := hentry.unique h
      exact .inr (.inr ⟨_, _, hends, .inl ⟨_, rfl, hrestore⟩⟩)
  | done hentry hends hrestore =>
      obtain ⟨rfl, rfl, rfl, rfl⟩ := hentry.unique h
      exact .inr (.inr ⟨_, _, hends, .inr ⟨rfl, hrestore⟩⟩)
  | found hfound =>
      cases h with
      | intro hmissing _ _ _ _ => exact (hmissing.not_found hfound).elim
  | top hmissing' hparent' =>
      cases h with
      | intro _ hparent _ _ _ => cases hparent.symm.trans hparent'
  | parentFailed hmissing' hparent' hclone' =>
      cases h with
      | intro hmissing hparent hclone _ _ =>
          obtain rfl := hmissing.unique hmissing'
          obtain rfl := Option.some.inj (hparent.symm.trans hparent')
          cases (ends_unique hclone hclone').1
  | parentUnwound hmissing' hparent' hclone' =>
      cases h with
      | intro hmissing hparent hclone _ _ =>
          obtain rfl := hmissing.unique hmissing'
          obtain rfl := Option.some.inj (hparent.symm.trans hparent')
          cases (ends_unique hclone hclone').1
  | noSource hmissing' hparent' hclone' hstatus' =>
      cases h with
      | intro hmissing hparent hclone hstatus _ =>
          obtain rfl := hmissing.unique hmissing'
          obtain rfl := Option.some.inj (hparent.symm.trans hparent')
          obtain rfl := (ends_unique hclone hclone').2
          cases (ends_unique hstatus hstatus').1
  | notRelaxed hmissing' hparent' hclone' hstatus' hrelax' =>
      cases h with
      | intro hmissing hparent hclone hstatus hrelax =>
          obtain rfl := hmissing.unique hmissing'
          obtain rfl := Option.some.inj (hparent.symm.trans hparent')
          obtain rfl := (ends_unique hclone hclone').2
          obtain ⟨hfound, rfl⟩ := ends_unique hstatus hstatus'
          obtain rfl := Except.ok.inj (Outcome.ok.inj hfound)
          cases (ends_unique hrelax hrelax').1

/-- A call whose target is missing ends as the call on its parent does, or behind it. -/
theorem Missing.ends {dir : OsString} {w w₁ w' : World} {r : Outcome CloneError Unit}
    (h : Missing env root source w w₁) (hparent : parent source = some dir)
    (hends : StepEnds env root clone fuel source w r w') :
    (∃ u, clone dir w₁ = some (.ok (), u)) ∨ clone dir w₁ = some (r, w') := by
  have hentered {n before relaxed after}
      (hentry : AtEntry env root clone source w n before relaxed after) :
      ∃ u, clone dir w₁ = some (.ok (), u) := by
    cases hentry with
    | intro hmissing hparent' hclone _ _ =>
        obtain rfl := h.unique hmissing
        obtain rfl := Option.some.inj (hparent.symm.trans hparent')
        exact ⟨_, hclone⟩
  cases hends with
  | found hfound => exact (h.not_found hfound).elim
  | top _ hparent' => cases hparent.symm.trans hparent'
  | parentFailed hmissing hparent' hclone =>
      obtain rfl := h.unique hmissing
      obtain rfl := Option.some.inj (hparent.symm.trans hparent')
      exact .inr hclone
  | parentUnwound hmissing hparent' hclone =>
      obtain rfl := h.unique hmissing
      obtain rfl := Option.some.inj (hparent.symm.trans hparent')
      exact .inr hclone
  | noSource hmissing hparent' hclone _ =>
      obtain rfl := h.unique hmissing
      obtain rfl := Option.some.inj (hparent.symm.trans hparent')
      exact .inl ⟨_, hclone⟩
  | notRelaxed hmissing hparent' hclone _ _ =>
      obtain rfl := h.unique hmissing
      obtain rfl := Option.some.inj (hparent.symm.trans hparent')
      exact .inl ⟨_, hclone⟩
  | left hentry _ => exact .inl (hentered hentry)
  | unwound hentry _ => exact .inl (hentered hentry)
  | notRestored hentry _ _ => exact .inl (hentered hentry)
  | done hentry _ _ => exact .inl (hentered hentry)

/-- A call leaves the tree alone, or comes to the call on its parent. -/
theorem StepEnds.start {w w' : World} {r : Outcome CloneError Unit}
    (h : StepEnds env root clone fuel source w r w') :
    (∃ n, symlinkMetadata env (targetOf root source)
      (w.line (.clonePath source (targetOf root source))) = some (.ok (.ok n), w') ∧ r = .ok ()) ∨
    (Missing env root source w w' ∧ parent source = none ∧ r = .ok ()) ∨
    ∃ dir w₁, Missing env root source w w₁ ∧ parent source = some dir := by
  have hentered {n before relaxed after}
      (hentry : AtEntry env root clone source w n before relaxed after) :
      ∃ dir w₁, Missing env root source w w₁ ∧ parent source = some dir := by
    cases hentry with
    | intro hmissing hparent _ _ _ => exact ⟨_, _, hmissing, hparent⟩
  cases h with
  | found hfound => exact .inl ⟨_, hfound, rfl⟩
  | top hmissing hparent => exact .inr (.inl ⟨hmissing, hparent, rfl⟩)
  | parentFailed hmissing hparent _ => exact .inr (.inr ⟨_, _, hmissing, hparent⟩)
  | parentUnwound hmissing hparent _ => exact .inr (.inr ⟨_, _, hmissing, hparent⟩)
  | noSource hmissing hparent _ _ => exact .inr (.inr ⟨_, _, hmissing, hparent⟩)
  | notRelaxed hmissing hparent _ _ _ => exact .inr (.inr ⟨_, _, hmissing, hparent⟩)
  | left hentry _ => exact .inr (.inr (hentered hentry))
  | unwound hentry _ => exact .inr (.inr (hentered hentry))
  | notRestored hentry _ _ => exact .inr (.inr (hentered hentry))
  | done hentry _ _ => exact .inr (.inr (hentered hentry))

/-- What comes behind the call on the parent. -/
theorem Missing.behind {dir : OsString} {w w₁ u w' : World} {r : Outcome CloneError Unit}
    (h : Missing env root source w w₁) (hparent : parent source = some dir)
    (hclone : clone dir w₁ = some (.ok (), u))
    (hends : StepEnds env root clone fuel source w r w') :
    (∃ e, symlinkMetadata env source u = some (.ok (.error e), w')) ∨
      ∃ n before, symlinkMetadata env source u = some (.ok (.ok n), before) ∧
        ((∃ e, relax env (targetOf root source) before = some (.err e, w')) ∨
          ∃ relaxed after, AtEntry env root clone source w n before relaxed after) := by
  have hentered {n before relaxed after}
      (hentry : AtEntry env root clone source w n before relaxed after) :
      symlinkMetadata env source u = some (.ok (.ok n), before) := by
    cases hentry with
    | intro hmissing hparent' hclone' hstatus _ =>
        obtain rfl := h.unique hmissing
        obtain rfl := Option.some.inj (hparent.symm.trans hparent')
        obtain rfl := (ends_unique hclone hclone').2
        exact hstatus
  cases hends with
  | found hfound => exact (h.not_found hfound).elim
  | top _ hparent' => cases hparent.symm.trans hparent'
  | parentFailed hmissing hparent' hclone' =>
      obtain rfl := h.unique hmissing
      obtain rfl := Option.some.inj (hparent.symm.trans hparent')
      cases (ends_unique hclone hclone').1
  | parentUnwound hmissing hparent' hclone' =>
      obtain rfl := h.unique hmissing
      obtain rfl := Option.some.inj (hparent.symm.trans hparent')
      cases (ends_unique hclone hclone').1
  | noSource hmissing hparent' hclone' hstatus =>
      obtain rfl := h.unique hmissing
      obtain rfl := Option.some.inj (hparent.symm.trans hparent')
      obtain rfl := (ends_unique hclone hclone').2
      exact .inl ⟨_, hstatus⟩
  | notRelaxed hmissing hparent' hclone' hstatus hrelax =>
      obtain rfl := h.unique hmissing
      obtain rfl := Option.some.inj (hparent.symm.trans hparent')
      obtain rfl := (ends_unique hclone hclone').2
      exact .inr ⟨_, _, hstatus, .inl ⟨_, hrelax⟩⟩
  | left hentry _ => exact .inr ⟨_, _, hentered hentry, .inr ⟨_, _, hentry⟩⟩
  | unwound hentry _ => exact .inr ⟨_, _, hentered hentry, .inr ⟨_, _, hentry⟩⟩
  | notRestored hentry _ _ => exact .inr ⟨_, _, hentered hentry, .inr ⟨_, _, hentry⟩⟩
  | done hentry _ _ => exact .inr ⟨_, _, hentered hentry, .inr ⟨_, _, hentry⟩⟩

/-- The link branch ends as the call on what the link leads to does, or behind it. -/
theorem EntryEnds.followed {n : Node} {text : OsString} {w w₁ w' : World}
    {r : Outcome CloneError (Except CloneError Unit)} (hlink : n.isLink = true)
    (hread : readLink env source w = some (.ok (.ok text), w₁))
    (h : EntryEnds env root clone fuel source target n w r w') :
    (∃ ret u, r = .ok ret ∧ clone (linkPath source text) w₁ = some (.ok (), u) ∧
        lnR env (targetOf root (linkPath source text)) target
          ((u.line (.clonePathSymlink (linkPath source text) target)).line
            (.lnRSymlink (targetOf root (linkPath source text)) target)) = some (.ok ret, w')) ∨
      (∃ e, r = .err e ∧ clone (linkPath source text) w₁ = some (.err e, w')) ∨
      (r = .panic ∧ clone (linkPath source text) w₁ = some (.panic, w')) := by
  cases h with
  | unread _ hread' => cases (ends_unique hread hread').1
  | failed _ hread' hclone =>
      obtain ⟨htext, rfl⟩ := ends_unique hread hread'
      obtain rfl := Except.ok.inj (Outcome.ok.inj htext)
      exact .inr (.inl ⟨_, rfl, hclone⟩)
  | unwound _ hread' hclone =>
      obtain ⟨htext, rfl⟩ := ends_unique hread hread'
      obtain rfl := Except.ok.inj (Outcome.ok.inj htext)
      exact .inr (.inr ⟨rfl, hclone⟩)
  | link _ hread' hclone hmade =>
      obtain ⟨htext, rfl⟩ := ends_unique hread hread'
      obtain rfl := Except.ok.inj (Outcome.ok.inj htext)
      exact .inl ⟨_, _, rfl, hclone, hmade⟩
  | dir hother _ _ => cases hlink.symm.trans hother
  | file hother _ _ _ => cases hlink.symm.trans hother
  | other hother _ _ => cases hlink.symm.trans hother

/-! ## The calls of a run -/

/-- The run of a call on `source` comes to a call on `s`, with a bound `f` and in the
world `v`. -/
inductive Nested (env : Env) (root : OsString) : Nat → OsString → World →
    Nat → OsString → World → Prop
  | self (fuel : Nat) (source : OsString) (w : World) : Nested env root fuel source w fuel source w
  | parent {fuel source w dir w₁ f s v} (hmissing : Missing env root source w w₁)
      (hparent : parent source = some dir) (hnested : Nested env root fuel dir w₁ f s v) :
      Nested env root (fuel + 1) source w f s v
  | link {fuel source w n before relaxed after text w₁ f s v}
      (hentry : AtEntry env root (clonePath env root fuel) source w n before relaxed after)
      (hlink : n.isLink = true) (hread : readLink env source after = some (.ok (.ok text), w₁))
      (hnested : Nested env root fuel (linkPath source text) w₁ f s v) :
      Nested env root (fuel + 1) source w f s v

/-- A property of each call of a run. -/
def EachCall (env : Env) (root : OsString) (P : Nat → OsString → World → Prop) (fuel : Nat)
    (source : OsString) (w : World) : Prop :=
  ∀ f s v, Nested env root fuel source w (f + 1) s v → P f s v

section EachCall

variable {P : Nat → OsString → World → Prop}

theorem EachCall.parent {dir : OsString} {w w₁ : World}
    (h : EachCall env root P (fuel + 1) source w) (hmissing : Missing env root source w w₁)
    (hparent : UnixPath.parent source = some dir) : EachCall env root P fuel dir w₁ :=
  fun f s v hnested => h f s v (.parent hmissing hparent hnested)

theorem EachCall.link {n : Node} {relaxed : Option (OsString × Nat)} {text : OsString}
    {w before after w₁ : World} (h : EachCall env root P (fuel + 1) source w)
    (hentry : AtEntry env root (clonePath env root fuel) source w n before relaxed after)
    (hlink : n.isLink = true) (hread : readLink env source after = some (.ok (.ok text), w₁)) :
    EachCall env root P fuel (linkPath source text) w₁ :=
  fun f s v hnested => h f s v (.link hentry hlink hread hnested)

theorem EachCall.of {w : World} (hself : P fuel source w)
    (hparent : ∀ dir w₁, Missing env root source w w₁ → UnixPath.parent source = some dir →
      EachCall env root P fuel dir w₁)
    (hlink : ∀ n before relaxed after text w₁,
      AtEntry env root (clonePath env root fuel) source w n before relaxed after →
      n.isLink = true → readLink env source after = some (.ok (.ok text), w₁) →
      EachCall env root P fuel (linkPath source text) w₁) :
    EachCall env root P (fuel + 1) source w := by
  intro f s v hnested
  cases hnested with
  | self => exact hself
  | parent hmissing hdir hnested => exact hparent _ _ hmissing hdir f s v hnested
  | link hentry hislink hread hnested => exact hlink _ _ _ _ _ _ hentry hislink hread f s v hnested

end EachCall

/-- A call returns `Ok`, or the run ends with it. -/
theorem Nested.ends {f : Nat} {s : OsString} {w v w' : World} {r : Outcome CloneError Unit}
    (h : Nested env root fuel source w f s v)
    (hrun : clonePath env root fuel source w = some (r, w')) :
    (∃ u, clonePath env root f s v = some (.ok (), u)) ∨ clonePath env root f s v = some (r, w') := by
  induction h generalizing r w' with
  | self fuel source w => exact .inr hrun
  | parent hmissing hparent _ ih =>
      rcases hmissing.ends hparent (cloneStep_ends hrun) with ⟨u, hclone⟩ | hclone
      · rcases ih hclone with hok | hok
        · exact .inl hok
        · exact .inl ⟨u, hok⟩
      · exact ih hclone
  | link hentry hlink hread _ ih =>
      rcases hentry.ends (cloneStep_ends hrun) with ⟨e, rfl, hends⟩ | ⟨rfl, hends⟩ |
        ⟨ret, u, hends, _⟩
      · rcases hends.followed hlink hread with ⟨ret, u, hr, _⟩ | ⟨e', hr, hclone⟩ | ⟨hr, _⟩
        · cases hr
        · cases hr
          exact ih hclone
        · cases hr
      · rcases hends.followed hlink hread with ⟨ret, u, hr, _⟩ | ⟨e, hr, _⟩ | ⟨_, hclone⟩
        · cases hr
        · cases hr
        · exact ih hclone
      · rcases hends.followed hlink hread with ⟨ret, u, _, hclone, _⟩ | ⟨e, hr, _⟩ | ⟨hr, _⟩
        · rcases ih hclone with hok | hok
          · exact .inl hok
          · exact .inl ⟨u, hok⟩
        · cases hr
        · cases hr

/-- A call in `v` comes to copy its source in `u`. -/
inductive MakesCopy (env : Env) (root : OsString) (f : Nat) (s : OsString) (v u : World) : Prop
  | intro {n before relaxed after w₁ w₂}
      (hentry : AtEntry env root (clonePath env root f) s v n before relaxed after)
      (hlink : n.isLink = false) (hdir : isDir env s after = some (.ok false, w₁))
      (hfile : isFile env s w₁ = some (.ok true, w₂))
      (hcopies : u = w₂.line (.clonePathCopy s (targetOf root s)))

/-- A property that everything but a copy keeps. -/
structure Undisturbed (env : Env) (I : World → Prop) : Prop extends Harmless env I where
  line : ∀ w l, I w → I (World.line w l)
  createDir : ∀ p mode, Keeps I I (createDir env p mode)
  symlink : ∀ text p, Keeps I I (symlink env text p)

namespace Undisturbed

variable {I : World → Prop} (h : Undisturbed env I)

include h

theorem missing {w w₁ : World} (hmissing : Missing env root source w w₁) (hw : I w) : I w₁ := by
  obtain ⟨e, hask⟩ := hmissing
  exact h.ask _ _ _ _ (h.line _ _ hw) hask

theorem lnR {w w' : World} {path : OsString} {ret : Except CloneError Unit}
    (hln : File.lnR env path target w = some (.ok ret, w')) (hw : I w) : I w' := by
  rw [File.lnR] at hln
  cases htext : convertAbsRel path target with
  | none =>
      rw [htext] at hln
      rw [(pure_eq_some.mp hln).2]
      exact hw
  | some text =>
      rw [htext] at hln
      obtain ⟨a, w₁, hsym, hln⟩ := change_bind hln
      rw [(pure_eq_some.mp hln).2]
      exact h.symlink _ _ _ _ _ hw hsym

/-- A call that has come to its branch has kept what its parent's call keeps. -/
theorem atEntry {w before after : World} {n : Node} {relaxed : Option (OsString × Nat)}
    (hentry : AtEntry env root clone source w n before relaxed after)
    (hclone : ∀ dir w₁ r w₂, Missing env root source w w₁ → parent source = some dir → I w₁ →
      clone dir w₁ = some (r, w₂) → I w₂) (hw : I w) : I after := by
  cases hentry with
  | intro hmissing hparent hrun hstatus hrelax =>
      have hw₁ := h.missing hmissing hw
      have hw₂ := hclone _ _ _ _ hmissing hparent hw₁ hrun
      exact h.relax _ _ _ _ (h.ask _ _ _ _ hw₂ hstatus) hrelax

theorem entryEnds {n : Node} {w w' : World} {r : Outcome CloneError (Except CloneError Unit)}
    (hends : EntryEnds env root clone fuel source target n w r w')
    (hclone : ∀ text w₁ r w₂, n.isLink = true →
      readLink env source w = some (.ok (.ok text), w₁) → I w₁ →
      clone (linkPath source text) w₁ = some (r, w₂) → I w₂)
    (hcopy : ∀ w₁ w₂ ret, n.isLink = false → isDir env source w = some (.ok false, w₁) →
      isFile env source w₁ = some (.ok true, w₂) →
      I (w₂.line (.clonePathCopy source target)) →
      copyFile env fuel source target (w₂.line (.clonePathCopy source target)) =
        some (.ok ret, w') → I w') (hw : I w) : I w' := by
  cases hends with
  | unread _ hread => exact h.ask _ _ _ _ hw hread
  | failed hlink hread hrun => exact hclone _ _ _ _ hlink hread (h.ask _ _ _ _ hw hread) hrun
  | unwound hlink hread hrun => exact hclone _ _ _ _ hlink hread (h.ask _ _ _ _ hw hread) hrun
  | link hlink hread hrun hmade =>
      have hw₂ := hclone _ _ _ _ hlink hread (h.ask _ _ _ _ hw hread) hrun
      exact h.lnR hmade (h.line _ _ (h.line _ _ hw₂))
  | dir _ hdir hmade =>
      exact h.createDir _ _ _ _ _ (h.line _ _ (h.isDir _ _ _ _ hw hdir)) hmade
  | file hlink hdir hfile hrun =>
      have hw₂ := h.isFile _ _ _ _ (h.isDir _ _ _ _ hw hdir) hfile
      exact hcopy _ _ _ hlink hdir hfile (h.line _ _ hw₂) hrun
  | other _ hdir hfile => exact h.isFile _ _ _ _ (h.isDir _ _ _ _ hw hdir) hfile

/-- What each copy of a run keeps, the run keeps, whatever it ends in. -/
theorem clonePath {w w' : World} {r : Outcome CloneError Unit}
    (hcopy : ∀ f s v u, Nested env root fuel source w (f + 1) s v → MakesCopy env root f s v u →
      ∀ ret u', I u → copyFile env f s (targetOf root s) u = some (.ok ret, u') → I u')
    (hrun : clonePath env root fuel source w = some (r, w')) (hw : I w) : I w' := by
  induction fuel generalizing source w w' r with
  | zero => cases hrun
  | succ fuel ih =>
      have hparent (dir w₁ r w₂) (hmissing : Missing env root source w w₁)
          (hdir : parent source = some dir) (hw₁ : I w₁)
          (h₁ : File.clonePath env root fuel dir w₁ = some (r, w₂)) : I w₂ :=
        ih (fun f s v u hnested => hcopy f s v u (.parent hmissing hdir hnested)) h₁ hw₁
      have hentered {n before relaxed after}
          (hentry : AtEntry env root (File.clonePath env root fuel) source w n before relaxed after)
          {r w'} (hends : EntryEnds env root (File.clonePath env root fuel) fuel source
            (targetOf root source) n after r w') : I w' := by
        refine h.entryEnds hends ?_ ?_ (h.atEntry hentry hparent hw)
        · intro text w₁ r w₂ hlink hread hw₁ h₁
          exact ih (fun f s v u hnested => hcopy f s v u (.link hentry hlink hread hnested)) h₁ hw₁
        · intro w₁ w₂ ret hlink hdir hfile hw₂ hrun
          exact hcopy _ _ _ _ (.self _ _ _) (.intro hentry hlink hdir hfile rfl) ret _ hw₂ hrun
      cases cloneStep_ends hrun with
      | found hfound => exact h.ask _ _ _ _ (h.line _ _ hw) hfound
      | top hmissing _ => exact h.missing hmissing hw
      | parentFailed hmissing hdir h₁ => exact hparent _ _ _ _ hmissing hdir (h.missing hmissing hw) h₁
      | parentUnwound hmissing hdir h₁ =>
          exact hparent _ _ _ _ hmissing hdir (h.missing hmissing hw) h₁
      | noSource hmissing hdir h₁ hstatus =>
          exact h.ask _ _ _ _ (hparent _ _ _ _ hmissing hdir (h.missing hmissing hw) h₁) hstatus
      | notRelaxed hmissing hdir h₁ hstatus hrelax =>
          have hw₂ := hparent _ _ _ _ hmissing hdir (h.missing hmissing hw) h₁
          exact h.relax _ _ _ _ (h.ask _ _ _ _ hw₂ hstatus) hrelax
      | left hentry hends => exact hentered hentry hends
      | unwound hentry hends => exact hentered hentry hends
      | notRestored hentry hends hrestore => exact h.restore _ _ _ _ (hentered hentry hends) hrestore
      | done hentry hends hrestore => exact h.restore _ _ _ _ (hentered hentry hends) hrestore

end Undisturbed

end File
end DracutInstall

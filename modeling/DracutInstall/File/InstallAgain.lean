/-
A second run of `install_files` finds everything there.

A call of `clone_path` that returns `Ok` leaves its target behind, whatever its
system calls were answered, and an entry that is there is there for good.  So a
later process that is not disturbed looks at each target once and does nothing.
-/
import DracutInstall.File.CloneRetry
import DracutInstall.File.InstallOrder

namespace DracutInstall
namespace File

open ByteCodec Rust Process UnixPath FileTree

variable {env env' : Env} {root source target dir : OsString} {fuel : Nat} {t t' : Tree}
  {v : Tree.View} {loc : Loc} {n : Node}

/-! ## What has been made can be found -/

/-- The place at which an entry can be made is the one that the path names. -/
theorem names_of_walk (h : t.walk false true v.limit (Tree.start v target) (body target) = .ok loc)
    (hn : t.node loc = none) (hstart : t.isDir (Tree.start v target) = true) :
    Tree.Names v t target loc := by
  refine Tree.names_of_new h hn ?_ ?_
  · intro hnil
    rw [hnil] at h
    cases Tree.walk_sound h
    rw [Tree.isDir_of_none hn] at hstart
    cases hstart
  · rintro ⟨loc', n', hwalk, hn'⟩
    have hsame := (Tree.walk_sound h).unique (Tree.walk_sound hwalk)
    rw [hsame, hn'] at hn
    cases hn

/-- A directory is found under the path it was made with, and under that path with a
separator or a `.` behind it. -/
theorem status_of_namedDir {mode : Nat} (hne : target ≠ []) (h : Tree.Names v t target loc)
    (hn : t.node loc = some (.dir mode)) : t.status v true target = .ok (.dir mode) := by
  cases h with
  | @intro cs name k mid hbody hk hwalk hdir =>
      have hlast : Tree.WalksIn t k (Tree.start v target) (body target) (mid ++ [name]) := by
        rw [hbody]
        exact hwalk.append (.entry hdir hn rfl (.done _))
      have hsteps : Tree.WalksIn t k (Tree.start v target) (steps target) (mid ++ [name]) := by
        rw [steps]
        split
        · exact hlast.append (.curDir (Tree.isDir_iff.mpr ⟨mode, hn⟩) (.done _))
        · rw [List.append_nil]
          exact hlast
      apply status_of_lookup _ hn
      rw [Tree.lookup, if_neg hne]
      exact hsteps.walk hk

theorem put_keepsKinds {t : Tree} (hn : t.node loc = none) (n : Node) :
    Tree.KeepsKinds t (t.put loc n) :=
  (Tree.put_extends fun n' hn' => by rw [hn] at hn'; cases hn').keepsKinds

theorem mkdir_status {mode : Nat} (h : t.mkdir v target mode = .ok t') :
    t'.status v true target = .ok (.dir mode) := by
  obtain ⟨hne, loc, hwalk, hn⟩ := mkdir_iff.mp ⟨t', h⟩
  have hstart := (Tree.walk_sound hwalk).isDir_start (steps_ne_nil _)
  rw [Tree.steps_of_new hwalk hn, body_trimSeps] at hwalk
  have hnames := names_of_walk hwalk hn hstart
  obtain ⟨loc', hwalk', hn', rfl⟩ := Tree.mkdir_ok h
  obtain rfl := (Tree.walk_sound hwalk).unique hwalk'
  apply status_of_namedDir hne (hnames.keepsKinds (put_keepsKinds hn' _))
  rw [Tree.put_node (hnames.fits hn'), if_pos rfl]

theorem symlink_status {text : OsString} (h : t.symlink v text target = .ok t') :
    t'.status v false target = .ok (.link text) := by
  obtain ⟨_, loc, hlookup, hn⟩ := symlink_iff.mp ⟨t', h⟩
  have hwalk := Tree.lookup_ok hlookup
  have hstart := hwalk.isDir_start (steps_ne_nil target)
  have hfits : t.fits loc = true := by
    refine hwalk.fits (fun name hname => entryName_of_mem_steps hname) ?_ hn
    obtain ⟨m, hm⟩ := Tree.isDir_iff.mp hstart
    rw [hm]
    exact Option.some_ne_none _
  obtain ⟨loc', hwalk', hn', rfl, _⟩ := Tree.symlink_ok h
  obtain rfl := (hwalk.steps_new hn).unique hwalk'
  have hnode : (t.put loc (.link text)).node loc = some (.link text) := by
    rw [Tree.put_node hfits, if_pos rfl]
  have hfound := Tree.lookup_filled (put_keepsKinds hn _) (fun _ => ⟨_, hnode, .inr rfl⟩) hlookup
  exact status_of_lookup hfound hnode

/-- What is at the place that has been opened, once it has been written where it is a
file. -/
theorem node_written {answers : Kernel} (hopen : openTo env t target = .ok loc)
    (hlookup : t.lookup env.view true true target = .ok loc) (hdir : t.isDir loc = false)
    (mode : Nat) (content : List UInt8) :
    ∃ n, (if (copyKernel env answers t source target).setup.destIsFile = true then
        t.put loc (.file mode content) else t).node loc = some n ∧
      n.isLink = false ∧ n.isDir = false := by
  have hfile : (copyKernel env answers t source target).setup.destIsFile =
      ((t.node loc).map Node.isFile).getD true := by
    rw [copyKernel]
    dsimp only
    rw [hopen]
    rfl
  rw [hfile]
  split
  · rename_i hdest
    have hfits : t.fits loc = true := by
      refine openTo_fits hopen fun n hn => ?_
      rw [hn] at hdest
      exact hdest
    exact ⟨.file mode content, by rw [Tree.put_node hfits, if_pos rfl], rfl, rfl⟩
  · rename_i hdest
    have hwalk := Tree.lookup_ok hlookup
    rcases hwalk.ends_at (hwalk.isDir_start (steps_ne_nil target)) with ⟨hnone, _⟩ | ⟨n, hn, hlink⟩
    · rw [hnone] at hdest
      exact absurd rfl hdest
    · rw [Tree.isDir, hn] at hdir
      exact ⟨n, hn, hlink, hdir⟩

/-- A copy that gets as far as its destination leaves a file, or a device, there. -/
theorem copyFile_opened {w w' : World} {ret : Except CopyError Unit}
    (h : copyFile env fuel source target w = some (.ok ret, w')) :
    (w'.made = w.made ∧ ∃ e, ret = .error e) ∨ (w'.made = w.made ++ [.file target] ∧
      ∃ n, w'.tree.status env.view true target = .ok n ∧ n.isDir = false) := by
  have hkeeps := copyFile_keepsKinds h
  rw [copyFile] at h
  dsimp only at h
  cases hcopy : copy (copyKernel env (env.answers w.copies) w.tree source target) fuel w.flags with
  | none =>
      rw [hcopy] at h
      cases h
  | some c =>
      rw [hcopy] at h
      dsimp only at h
      cases hdst : c.dst with
      | none =>
          rw [hdst] at h
          obtain ⟨hret, rfl⟩ := Prod.mk.inj (Option.some.inj h)
          refine .inl ⟨rfl, ?_⟩
          cases hr : c.result with
          | error e =>
              rw [hr] at hret
              exact ⟨e, (Outcome.ok.inj hret).symm⟩
          | ok n =>
              obtain ⟨dst, hsome⟩ := copy_dst hcopy hr
              cases hdst.symm.trans hsome
      | some content =>
          obtain ⟨_, _, hto⟩ := openFiles_ok (copy_opened hcopy hdst)
          obtain ⟨loc, hopen⟩ := errorOf_or hto
          rw [hdst, hopen] at h
          obtain ⟨_, rfl⟩ := Prod.mk.inj (Option.some.inj h)
          obtain ⟨hlookup, hdir⟩ := openTo_ok hopen
          refine .inr ⟨rfl, ?_⟩
          obtain ⟨n, hn, hlink, hisDir⟩ := node_written hopen hlookup hdir _ content
          exact ⟨n, status_of_lookup (Tree.lookup_filled hkeeps (fun _ => ⟨n, hn, .inl hlink⟩) hlookup) hn,
            hisDir⟩

theorem copyFile_status {w w' : World}
    (h : copyFile env fuel source target w = some (.ok (.ok ()), w')) :
    ∃ n, w'.tree.status env.view false target = .ok n := by
  rcases copyFile_opened h with ⟨_, e, he⟩ | ⟨_, n, hn, _⟩
  · cases he
  · exact Tree.status_unfollowed hn

/-! ## What a call leaves behind -/

/-- The target of a call that returns `Ok` is there. -/
theorem clonePath_target {w w' : World} (hparent : parent source ≠ none)
    (h : clonePath env root fuel source w = some (.ok (), w')) :
    ∃ n, w'.tree.status env.view false (targetOf root source) = .ok n := by
  cases fuel with
  | zero => cases h
  | succ fuel =>
      cases (cloneStep_ends h).ok with
      | found hstatus htree _ =>
          rw [htree]
          exact ⟨_, hstatus⟩
      | top hnone _ _ => exact absurd hnone hparent
      | @made dir n w₁ w₂ w₃ w₄ _ _ _ _ _ _ _ hentry hrestored _ =>
          have hmade : ∃ n, w₄.tree.status env.view false (targetOf root source) = .ok n := by
            cases hentry with
            | link _ _ _ _ _ hmade _ => exact ⟨_, symlink_status hmade⟩
            | dir _ _ _ hmade _ => exact Tree.status_unfollowed (mkdir_status hmade)
            | file _ _ _ _ _ hcopy => exact copyFile_status hcopy
          obtain ⟨n, hn⟩ := hmade
          obtain ⟨n', hn', _⟩ := Tree.status_mono hrestored.forth hn
          exact ⟨n', hn'⟩

theorem installFiles_keepsKinds {files : List OsString} {w w' : World} {r : Outcome CloneError Unit}
    (h : installFiles env root fuel files w = some (r, w')) : Tree.KeepsKinds w.tree w'.tree := by
  induction files generalizing w with
  | nil =>
      rw [(pure_eq_some.mp h).2]
      exact .refl _
  | cons file files ih =>
      rcases installFiles_cons h with ⟨w₁, hclone, hrest⟩ | ⟨e, hclone, _⟩ | ⟨hclone, _⟩
      · exact (clonePath_keepsKinds hclone).trans (ih hrest)
      · exact clonePath_keepsKinds hclone
      · exact clonePath_keepsKinds hclone

theorem installFiles_targets {files : List OsString} {w w' : World}
    (h : installFiles env root fuel files w = some (.ok (), w')) {file : OsString}
    (hfile : file ∈ files) (hparent : parent file ≠ none) :
    ∃ n, w'.tree.status env.view false (targetOf root file) = .ok n := by
  induction files generalizing w with
  | nil => cases hfile
  | cons f files ih =>
      rcases installFiles_cons h with ⟨w₁, hclone, hrest⟩ | ⟨e, _, hr⟩ | ⟨_, hr⟩
      · rcases List.mem_cons.mp hfile with rfl | hfile
        · obtain ⟨n, hn⟩ := clonePath_target hparent hclone
          obtain ⟨n', hn', _⟩ := Tree.status_keepsKinds (installFiles_keepsKinds hrest) hn
          exact ⟨n', hn'⟩
        · exact ih hrest hfile
      · cases hr
      · cases hr

/-! ## Calls that do nothing -/

/-- The process has only looked, and written a line for each of the paths. -/
structure Idled (root : OsString) (files : List OsString) (w w' : World) : Prop where
  tree : w'.tree = w.tree
  flags : w'.flags = w.flags
  made : w'.made = w.made
  log : w'.log = w.log ++ files.map fun file => .clonePath file (targetOf root file)

theorem Idled.cons {file : OsString} {files : List OsString} {w w₁ w' : World}
    (h : Idled root [file] w w₁) (h' : Idled root files w₁ w') :
    Idled root (file :: files) w w' where
  tree := h'.tree.trans h.tree
  flags := h'.flags.trans h.flags
  made := h'.made.trans h.made
  log := by
    rw [h'.log, h.log, List.append_assoc]
    rfl

theorem ask_idle {α : Type} (hfault : ∀ k, env.fault k = none) (f : Tree → Except Errno α)
    (w : World) : ask env f w = some (.ok (f w.tree), { w with calls := w.calls + 1 }) := by
  rw [ask, call]
  dsimp only
  rw [hfault]
  dsimp only
  cases f w.tree with
  | error e => rfl
  | ok a =>
      show some (Outcome.ok (Except.ok a), { w with calls := _, made := w.made ++ [] }) = _
      rw [List.append_nil]

/-- A call whose target is there, or whose path has no parent, only looks. -/
theorem clonePath_idle (hfault : ∀ k, env.fault k = none) {w : World}
    (h : parent source ≠ none →
      ∃ n, w.tree.status env.view false (targetOf root source) = .ok n) :
    ∃ w', clonePath env root (fuel + 1) source w = some (.ok (), w') ∧ Idled root [source] w w' := by
  let u := w.line (.clonePath source (targetOf root source))
  have hask := ask_idle hfault (Tree.status · env.view false (targetOf root source)) u
  refine ⟨{ u with calls := w.calls + 1 }, ?_, ⟨rfl, rfl, rfl, rfl⟩⟩
  rw [clonePath, cloneStep]
  refine bind_eq_some.mpr (.inl ⟨_, _, rfl, bind_eq_some.mpr (.inl ⟨_, _, hask, ?_⟩)⟩)
  cases hstatus : u.tree.status env.view false (targetOf root source) with
  | ok n => rfl
  | error e =>
      cases hparent : parent source with
      | none => rfl
      | some dir =>
          obtain ⟨n, hn⟩ := h (by rw [hparent]; exact Option.some_ne_none _)
          cases hn.symm.trans hstatus

theorem installFiles_idle (hfault : ∀ k, env.fault k = none) {files : List OsString} {w : World}
    (h : ∀ file ∈ files, parent file ≠ none →
      ∃ n, w.tree.status env.view false (targetOf root file) = .ok n) :
    ∃ w', installFiles env root (fuel + 1) files w = some (.ok (), w') ∧ Idled root files w w' := by
  induction files generalizing w with
  | nil => exact ⟨w, rfl, rfl, rfl, rfl, (List.append_nil _).symm⟩
  | cons file files ih =>
      obtain ⟨w₁, hclone, hidled⟩ : ∃ w₁, clonePath env root (fuel + 1) file w = some (.ok (), w₁) ∧
          Idled root [file] w w₁ := clonePath_idle hfault (h file List.mem_cons_self)
      have hlater : ∀ f ∈ files, parent f ≠ none →
          ∃ n, w₁.tree.status env.view false (targetOf root f) = .ok n := by
        rw [hidled.tree]
        exact fun f hf => h f (List.mem_cons_of_mem _ hf)
      obtain ⟨w', hrest, hidled'⟩ := ih hlater
      exact ⟨w', bind_eq_some.mpr (.inl ⟨(), w₁, hclone, hrest⟩), hidled.cons hidled'⟩

/-- After a run that returns `Ok`, whatever its calls were answered, a process in which no
call fails finds the targets of the files there as long as entries keep their kinds: on
any of the files, in any order, it returns `Ok` and has only looked. -/
theorem installFiles_again {files files' : List OsString} {w w' v : World}
    (hrun : installFiles env root fuel files w = some (.ok (), w'))
    (hlater : Tree.KeepsKinds w'.tree v.tree) (hview : env'.view = env.view)
    (hfault : ∀ k, env'.fault k = none) (hsub : files' ⊆ files) (fuel' : Nat) :
    (∀ file ∈ files, parent file ≠ none →
      ∃ n, v.tree.status env'.view false (targetOf root file) = .ok n) ∧
    ∃ v', installFiles env' root (fuel' + 1) files' v = some (.ok (), v') ∧
      Idled root files' v v' := by
  have htargets (file : OsString) (hfile : file ∈ files) (hparent : parent file ≠ none) :
      ∃ n, v.tree.status env'.view false (targetOf root file) = .ok n := by
    obtain ⟨n, hn⟩ := installFiles_targets hrun hfile hparent
    obtain ⟨n', hn', _⟩ := Tree.status_keepsKinds hlater hn
    rw [hview]
    exact ⟨n', hn'⟩
  exact ⟨htargets, installFiles_idle hfault fun file hfile => htargets file (hsub hfile)⟩

theorem linked_again :
    ∃ w v, installFiles Sample.calm (ascii "/r") 9 [ascii "/l"] (World.start Sample.linked ⟨true, true⟩) =
        some (.ok (), w) ∧ w.made ≠ [] ∧
      installFiles Sample.calm (ascii "/r") 1 [ascii "/l", ascii "/l"] w = some (.ok (), v) ∧
      Idled (ascii "/r") [ascii "/l", ascii "/l"] w v := by
  obtain ⟨w, hrun, hmade⟩ : ∃ w, installFiles Sample.calm (ascii "/r") 9 [ascii "/l"]
        (World.start Sample.linked ⟨true, true⟩) = some (.ok (), w) ∧ w.made ≠ [] :=
    exists_ok_of_any (by decide +kernel)
  have hsub : [ascii "/l", ascii "/l"] ⊆ [ascii "/l"] := by simp
  obtain ⟨_, v, hagain, hidled⟩ :=
    installFiles_again hrun (.refl w.tree) rfl (fun _ => rfl) hsub 0
  exact ⟨w, v, hrun, hmade, hagain, hidled⟩

end File
end DracutInstall

/-
`clone_path` and `install_files`: a path of the running system, with its parents
and what its links lead to, put below the destination.

There is one tree, which holds the sources and the destination.  A run is a
function on `World`; every system call may fail for a reason of its own, which
`Env.fault` gives, and each copy is answered by a `Kernel` of its own.  A bound on
the depth of the calls stands in for the stack.
-/
import DracutInstall.File.Copy
import DracutInstall.File.RelativeLink
import DracutInstall.Lib.FileTree
import DracutInstall.Lib.Process

namespace DracutInstall
namespace File

open ByteCodec Rust UnixPath FileTree

/-- What the system answers during one process.  `layout` says which bytes of a file
are data. -/
structure Env where
  view : Tree.View
  umask : Nat
  fault : Nat → Option Errno
  answers : Nat → Kernel
  layout : List UInt8 → SparseFile.File
  content_layout : ∀ content, (layout content).content = content

/-- The lines on standard error. -/
inductive Line where
  | clonePath (source target : OsString)
  | clonePathSymlink (path target : OsString)
  | lnRSymlink (targetPath target : OsString)
  | clonePathMkdir (source target : OsString)
  | clonePathCopy (source target : OsString)
  deriving DecidableEq

/-- What was created, or written, and under which path. -/
inductive Made where
  | dir (path : OsString)
  | link (text path : OsString)
  | file (path : OsString)
  deriving DecidableEq

structure World where
  tree : Tree
  flags : Flags
  calls : Nat
  copies : Nat
  log : List Line
  made : List Made

/-- The world when the process starts. -/
def World.start (tree : Tree) (flags : Flags) : World :=
  { tree, flags, calls := 0, copies := 0, log := [], made := [] }

/-- The call an error of `clone_path` names. -/
inductive CloneError where
  | sourceMetadata (e : Errno)
  | relaxPermissions (e : Errno)
  | readLink (e : Errno)
  | cantGetParent
  | cantSymlink (e : Errno)
  | mkdir (e : Errno)
  | copy (e : CopyError)
  | setPermissions (e : Errno)
  deriving DecidableEq

/-- A computation of the process. -/
abbrev Run (α : Type) : Type := Process World CloneError α

/-- `eprintln!`. -/
def eprintln (line : Line) : Run Unit := fun w => some (.ok (), { w with log := w.log ++ [line] })

variable (env : Env)

/-- A system call, with what it makes where it succeeds. -/
def call {α : Type} (made : List Made) (f : Tree → Except Errno (α × Tree)) :
    Run (Except Errno α) := fun w =>
  let after := { w with calls := w.calls + 1 }
  match env.fault w.calls with
  | some e => some (.ok (.error e), after)
  | none =>
      match f w.tree with
      | .error e => some (.ok (.error e), after)
      | .ok (a, tree) => some (.ok (.ok a), { after with tree, made := w.made ++ made })

/-- A system call that only looks. -/
def ask {α : Type} (f : Tree → Except Errno α) : Run (Except Errno α) :=
  call env [] fun t => (f t).map fun a => (a, t)

/-- A system call that changes the tree. -/
def change (made : List Made) (f : Tree → Except Errno Tree) : Run (Except Errno Unit) :=
  call env made fun t => (f t).map fun t' => ((), t')

def symlinkMetadata (p : OsString) : Run (Except Errno Node) :=
  ask env (Tree.status · env.view false p)

def metadata (p : OsString) : Run (Except Errno Node) := ask env (Tree.status · env.view true p)

def readLink (p : OsString) : Run (Except Errno OsString) := ask env (Tree.readLink · env.view p)

def setPermissions (p : OsString) (mode : Nat) : Run (Except Errno Unit) :=
  change env [] (Tree.chmod · env.view p mode)

/-- The mode the system gives what is created with `mode`. -/
def Env.created (mode : Nat) : Nat := mode &&& 0o1777 &&& (0o7777 ^^^ (env.umask &&& 0o7777))

/-- `DirBuilder::create`. -/
def createDir (p : OsString) (mode : Nat) : Run (Except Errno Unit) :=
  change env [.dir p] (Tree.mkdir · env.view p (env.created mode))

def symlink (text p : OsString) : Run (Except Errno Unit) :=
  change env [.link text p] (Tree.symlink · env.view text p)

/-! ## `copy` on the tree -/

/-- Where `open` with `O_CREAT` and `O_WRONLY` leads. -/
def openTo (t : Tree) (p : OsString) : Except Errno Loc :=
  match t.lookup env.view true true p with
  | .error e => .error e
  | .ok loc => if t.isDir loc then .error .eisdir else .ok loc

def errorOf {ε α : Type} : Except ε α → Option ε
  | .ok _ => none
  | .error e => some e

/-- What is read from the source once the destination has been emptied, and brought
to length again, if they are one file. -/
def readContent (same extended : Bool) (content : List UInt8) : List UInt8 :=
  if same then if extended then List.replicate content.length 0 else [] else content

/-- The answers to one copy: those of `answers`, for the files the two paths lead to.  The
files of a tree are as long as their status says. -/
def copyKernel (answers : Kernel) (t : Tree) (source target : OsString) : Kernel :=
  let from? := t.status env.view true source
  let to? := openTo env t target
  let content := (from?.toOption.map Node.content).getD []
  let same := decide (t.lookup env.view true false source = t.lookup env.view true true target)
  { answers with
    source := env.layout (readContent same answers.setup.ftruncate.isNone content)
    len := content.length
    seekByStat := false
    seekByStat_data := nofun
    setup := { answers.setup with
      openFrom := answers.setup.openFrom <|> errorOf from?
      sourceIsFile := (from?.toOption.map Node.isFile).getD false
      openTo := answers.setup.openTo <|> errorOf to?
      destIsFile := (to?.toOption.map fun loc =>
        ((t.node loc).map Node.isFile).getD true).getD false } }

/-- The mode a change of the owner leaves: the set-user-ID bit is cleared, and the
set-group-ID bit where the group may execute the file. -/
def chownedMode (mode : Nat) : Nat :=
  if mode &&& 0o010 = 0 then mode &&& 0o3777 else mode &&& 0o1777

/-- The mode of the destination after the copy, which sets it before it sets the owner. -/
def copiedMode (k : Kernel) (t : Tree) (loc : Loc) (mode : Nat) : Nat :=
  if k.setup.setPermissions.isNone then
    if k.setup.fchown.isNone then chownedMode mode else mode
  else ((t.node loc).map Node.mode).getD (env.created mode)

/-- `copy`, which creates or empties the destination once it has been opened. -/
def copyFile (fuel : Nat) (source target : OsString) : Run (Except CopyError Unit) := fun w =>
  let k := copyKernel env (env.answers w.copies) w.tree source target
  let mode := ((w.tree.status env.view true source).toOption.map Node.mode).getD 0
  match copy k fuel w.flags with
  | none => none
  | some c =>
      let after := { w with flags := c.flags, copies := w.copies + 1 }
      let result := c.result.map fun _ => ()
      match c.dst, openTo env w.tree target with
      | some content, .ok loc =>
          let node := Node.file (copiedMode env k w.tree loc mode) content
          some (.ok result, { after with
            tree := if k.setup.destIsFile then w.tree.put loc node else w.tree
            made := w.made ++ [.file target] })
      | _, _ => some (.ok result, after)

/-! ## `clone_path` -/

variable (root : OsString)

/-- A path below the destination: one byte of it is cut off if it has a root. -/
def targetOf (p : OsString) : OsString :=
  if hasRoot p then push root (p.drop 1) else push root p

/-- The path a link leads to. -/
def linkPath (source text : OsString) : OsString :=
  if hasRoot text then text else push ((parent source).getD [sep]) text

/-- `Permissions::readonly` -/
def readonly (mode : Nat) : Bool := mode &&& 0o222 == 0

/-- The parent of the target is made writable; its path and its mode, if it was not. -/
def relax (target : OsString) : Run (Option (OsString × Nat)) :=
  match parent target with
  | none => pure none
  | some dir => do
      match ← metadata env dir with
      | .error _ => pure none
      | .ok n =>
          if readonly n.mode then
            let r ← setPermissions env dir (n.mode ||| 0o222)
            Process.orFail .relaxPermissions r
            pure (some (dir, n.mode))
          else pure none

def restore : Option (OsString × Nat) → Run Unit
  | none => pure ()
  | some (dir, mode) => do
      let r ← setPermissions env dir mode
      Process.orFail .setPermissions r

/-- `ln_r` -/
def lnR (source target : OsString) : Run (Except CloneError Unit) :=
  match convertAbsRel source target with
  | none => pure (.error .cantGetParent)
  | some text => do
      let r ← symlink env text target
      pure (r.mapError .cantSymlink)

/-- `Path::is_dir` -/
def isDir (p : OsString) : Run Bool := do
  let r ← metadata env p
  pure (r.toOption.elim false Node.isDir)

/-- `Path::is_file` -/
def isFile (p : OsString) : Run Bool := do
  let r ← metadata env p
  pure (r.toOption.elim false Node.isFile)

/-- The link branch: what the link leads to comes first. -/
def cloneLink (clone : OsString → Run Unit) (source target : OsString) :
    Run (Except CloneError Unit) := do
  let r ← readLink env source
  let text ← Process.orFail .readLink r
  let path := linkPath source text
  clone path
  eprintln (.clonePathSymlink path target)
  let targetPath := targetOf root path
  eprintln (.lnRSymlink targetPath target)
  lnR env targetPath target

/-- One branch for each kind of entry; its result is kept until the permissions are
restored. -/
def cloneEntry (clone : OsString → Run Unit) (fuel : Nat) (source target : OsString) (n : Node) :
    Run (Except CloneError Unit) :=
  if n.isLink then cloneLink env root clone source target
  else do
    if ← isDir env source then
      eprintln (.clonePathMkdir source target)
      let r ← createDir env target n.mode
      pure (r.mapError .mkdir)
    else if ← isFile env source then
      eprintln (.clonePathCopy source target)
      let r ← copyFile env fuel source target
      pure (r.mapError .copy)
    else Process.unimplemented

/-- `clone_path`, with `clone` for its calls of itself. -/
def cloneStep (clone : OsString → Run Unit) (fuel : Nat) (source : OsString) : Run Unit := do
  let target := targetOf root source
  eprintln (.clonePath source target)
  match ← symlinkMetadata env target with
  | .ok _ => pure ()
  | .error _ =>
      match parent source with
      | none => pure ()
      | some dir => do
          clone dir
          let r ← symlinkMetadata env source
          let n ← Process.orFail .sourceMetadata r
          let relaxed ← relax env target
          let ret ← cloneEntry env root clone fuel source target n
          restore env relaxed
          Process.orFail id ret

def clonePath : Nat → OsString → Run Unit
  | 0, _ => Process.outOfFuel
  | fuel + 1, source => cloneStep env root (clonePath fuel) fuel source

def installFiles (fuel : Nat) : List OsString → Run Unit
  | [] => pure ()
  | file :: files => do
      clonePath env root fuel file
      installFiles fuel files

/-! ## Targets -/

section Targets

variable {root source dir : OsString}

theorem hasRoot_targetOf (hroot : hasRoot root = true)
    (hsource : hasRoot source = true) : hasRoot (targetOf root source) = true := by
  rw [targetOf, if_pos hsource]
  cases hrest : hasRoot (source.drop 1) with
  | true =>
      rw [push, if_pos hrest]
      exact hrest
  | false => rw [hasRoot_push hrest, hroot]

theorem start_push (v : Tree.View) {p q : OsString} (h : hasRoot q = false) :
    Tree.start v (push p q) = Tree.start v p := by
  rw [Tree.start, Tree.start, hasRoot_push h]

/-- What is pushed on the destination has no root of its own. -/
def Pushed (source : OsString) : Prop := hasRoot source = true → hasRoot (source.drop 1) = false

theorem Pushed.targetOf (h : Pushed source) (root : OsString) :
    ∃ q, File.targetOf root source = push root q ∧ hasRoot q = false ∧ steps q = steps source ∧ body q = body source := by
  cases hsource : hasRoot source with
  | false =>
      refine ⟨source, ?_, hsource, rfl, rfl⟩
      rw [File.targetOf, hsource, if_neg Bool.false_ne_true]
  | true =>
      obtain ⟨rest, rfl⟩ := exists_of_hasRoot hsource
      exact ⟨rest, if_pos hsource, h hsource, (steps_sep_cons rest).symm, (body_sep_cons rest).symm⟩

theorem Pushed.body (h : Pushed source) :
    UnixPath.body (File.targetOf root source) = UnixPath.body root ++ UnixPath.body source := by
  obtain ⟨q, htarget, hq, _, hbody⟩ := h.targetOf root
  rw [htarget, body_push hq, hbody]

theorem Pushed.steps (h : Pushed source) :
    UnixPath.steps (File.targetOf root source) = UnixPath.body root ++ UnixPath.steps source := by
  obtain ⟨q, htarget, hq, hsteps, _⟩ := h.targetOf root
  rw [htarget, steps_push hq, hsteps]

theorem Pushed.start (h : Pushed source) (v : Tree.View) :
    Tree.start v (File.targetOf root source) = Tree.start v root := by
  obtain ⟨q, htarget, hq, _⟩ := h.targetOf root
  rw [htarget, start_push v hq]

theorem Pushed.endsBlank_trimSeps (h : Pushed source) (root : OsString)
    (hne : UnixPath.body source ≠ []) :
    endsBlank (trimSeps (File.targetOf root source)) = endsBlank (trimSeps source) := by
  cases hsource : hasRoot source with
  | false =>
      rw [File.targetOf, hsource, if_neg Bool.false_ne_true,
        endsBlank_trimSeps_push root hsource hne]
  | true =>
      obtain ⟨rest, rfl⟩ := exists_of_hasRoot hsource
      rw [body_sep_cons] at hne
      rw [File.targetOf, if_pos hsource, endsBlank_trimSeps_cons_sep hne]
      exact endsBlank_trimSeps_push root (h hsource) hne

theorem Pushed.parent (h : Pushed source) (hparent : UnixPath.parent source = some dir) :
    Pushed dir := by
  intro hdir
  rw [hasRoot_parent hparent] at hdir
  exact single_parent (h hdir) hparent

theorem Pushed.target_ne_nil (h : Pushed source) (hroot : root ≠ []) :
    File.targetOf root source ≠ [] := by
  obtain ⟨q, htarget, _⟩ := h.targetOf root
  rw [htarget]
  exact push_ne_nil hroot q

theorem Pushed.lead (h : Pushed source) (hroot : root ≠ []) :
    UnixPath.lead (File.targetOf root source) = UnixPath.lead root := by
  obtain ⟨q, htarget, hq, _⟩ := h.targetOf root
  rw [htarget, lead_push hroot hq]

/-- The parent of a target, below any destination. -/
theorem Pushed.parent_target {c : Component} (h : Pushed source) (hroot : root ≠ [])
    (hbody : UnixPath.body source = UnixPath.body dir ++ [c]) :
    ∃ dirT, UnixPath.parent (File.targetOf root source) = some dirT ∧
      UnixPath.body dirT = UnixPath.body root ++ UnixPath.body dir ∧
      leadComponents dirT = leadComponents root := by
  have htarget : UnixPath.body (File.targetOf root source) =
      UnixPath.body root ++ UnixPath.body dir ++ [c] := by
    rw [h.body, hbody, List.append_assoc]
  have hne : UnixPath.body (File.targetOf root source) ≠ [] := by
    rw [htarget]
    exact List.concat_ne_nil _ _
  cases hdirT : UnixPath.parent (File.targetOf root source) with
  | none => exact absurd (parent_eq_none hdirT) hne
  | some dirT =>
      refine ⟨dirT, rfl, ?_, ?_⟩
      · rcases body_parent hdirT with ⟨hnil, _⟩ | ⟨c', hlast⟩
        · exact absurd hnil hne
        · exact (List.append_inj' (hlast.symm.trans htarget) rfl).1
      · rw [leadComponents, lead_parent hdirT hne, h.lead hroot, leadComponents]

theorem hasRoot_linkPath {text : OsString} (hsource : hasRoot source = true)
    (hdir : parent source = some dir) : hasRoot (linkPath source text) = true := by
  rw [linkPath, hdir]
  split
  · assumption
  · rename_i htext
    have htext : hasRoot text = false := by simpa using htext
    exact (hasRoot_push htext).trans (parent_eq_some hsource hdir).1

end Targets

/-! ## What every call keeps -/

open Process

/-- A property of the world that no call that only looks, and no change of a mode, can
break. -/
structure Harmless (env : Env) (I : World → Prop) : Prop where
  ask : ∀ {α : Type} (f : Tree → Except Errno α), Keeps I I (ask env f)
  setPermissions : ∀ p mode, Keeps I I (setPermissions env p mode)

/-- A property that nothing `clone_path` does can break. -/
structure Invariant (env : Env) (I : World → Prop) : Prop extends Harmless env I where
  eprintln : ∀ line, Keeps I I (eprintln line)
  createDir : ∀ p mode, Keeps I I (createDir env p mode)
  symlink : ∀ text p, Keeps I I (symlink env text p)
  copyFile : ∀ fuel source target, Keeps I I (copyFile env fuel source target)

section Keeps

variable {env : Env} {I : World → Prop}

namespace Harmless

variable (h : Harmless env I)

include h

theorem relax (target : OsString) : Keeps I I (relax env target) := by
  rw [File.relax]
  split
  · exact keeps_pure none
  · refine (h.ask _).seq fun r => ?_
    split
    · exact keeps_pure none
    · split
      · exact (h.setPermissions _ _).seq fun r => (keeps_orFail _ r).seq fun _ => keeps_pure _
      · exact keeps_pure none

theorem restore (relaxed : Option (OsString × Nat)) : Keeps I I (restore env relaxed) := by
  cases relaxed with
  | none => exact keeps_pure ()
  | some perms => exact (h.setPermissions _ _).seq fun r => keeps_orFail _ r

theorem isDir (p : OsString) : Keeps I I (isDir env p) := (h.ask _).seq fun _ => keeps_pure _

theorem isFile (p : OsString) : Keeps I I (isFile env p) := (h.ask _).seq fun _ => keeps_pure _

end Harmless

namespace Invariant

variable (h : Invariant env I) {root : OsString}

include h

theorem lnR (source target : OsString) : Keeps I I (lnR env source target) := by
  rw [File.lnR]
  split
  · exact keeps_pure _
  · exact (h.symlink _ _).seq fun r => keeps_pure _

theorem cloneEntry {clone : OsString → Run Unit} (hclone : ∀ source, Keeps I I (clone source))
    (fuel : Nat) (source target : OsString) (n : Node) :
    Keeps I I (cloneEntry env root clone fuel source target n) := by
  rw [File.cloneEntry]
  split
  · refine (h.ask _).seq fun r => (keeps_orFail _ r).seq fun text => ?_
    refine (hclone _).seq fun _ => (h.eprintln _).seq fun _ => (h.eprintln _).seq fun _ => ?_
    exact h.lnR _ _
  · refine (h.isDir _).seq fun isDir => ?_
    split
    · exact (h.eprintln _).seq fun _ => (h.createDir _ _).seq fun r => keeps_pure _
    · refine (h.isFile _).seq fun isFile => ?_
      split
      · exact (h.eprintln _).seq fun _ => (h.copyFile _ _ _).seq fun r => keeps_pure _
      · exact keeps_unimplemented

theorem cloneStep {clone : OsString → Run Unit} (hclone : ∀ source, Keeps I I (clone source))
    (fuel : Nat) (source : OsString) : Keeps I I (cloneStep env root clone fuel source) := by
  refine (h.eprintln _).seq fun _ => (h.ask _).seq fun r => ?_
  split
  · exact keeps_pure _
  · split
    · exact keeps_pure _
    · refine (hclone _).seq fun _ => (h.ask _).seq fun r => (keeps_orFail _ r).seq fun n => ?_
      refine (h.relax _).seq fun relaxed => (h.cloneEntry hclone fuel _ _ n).seq fun ret => ?_
      exact (h.restore relaxed).seq fun _ => keeps_orFail _ ret

/-- Whatever the run ends in. -/
theorem clonePath (fuel : Nat) (source : OsString) :
    Keeps I I (clonePath env root fuel source) := by
  induction fuel generalizing source with
  | zero => exact keeps_outOfFuel
  | succ fuel ih => exact h.cloneStep ih fuel source

theorem installFiles (fuel : Nat) (files : List OsString) :
    Keeps I I (installFiles env root fuel files) := by
  induction files with
  | nil => exact keeps_pure ()
  | cons file files ih => exact (h.clonePath fuel file).seq fun _ => ih

end Invariant

theorem keeps_call_log {α : Type} (log : List Line) (made : List Made)
    (f : Tree → Except Errno (α × Tree)) :
    Keeps (fun w => log <+: w.log) (fun w => log <+: w.log) (call env made f) := by
  intro w r w' h heq
  rw [call] at heq
  split at heq
  · cases heq
    exact h
  · split at heq <;> cases heq <;> exact h

theorem keeps_change_log (log : List Line) (made : List Made) (f : Tree → Except Errno Tree) :
    Keeps (fun w => log <+: w.log) (fun w => log <+: w.log) (change env made f) :=
  keeps_call_log log made _

theorem keeps_copyFile_log (log : List Line) (fuel : Nat) (source target : OsString) :
    Keeps (fun w => log <+: w.log) (fun w => log <+: w.log) (copyFile env fuel source target) := by
  intro w r w' h heq
  rw [copyFile] at heq
  dsimp only at heq
  split at heq
  · cases heq
  · split at heq <;> cases heq <;> exact h

/-- Lines are only added to the log. -/
theorem log_invariant (log : List Line) : Invariant env fun w => log <+: w.log where
  ask _ := keeps_call_log log _ _
  setPermissions _ _ := keeps_change_log log _ _
  createDir _ _ := keeps_change_log log _ _
  symlink _ _ := keeps_change_log log _ _
  copyFile := keeps_copyFile_log log
  eprintln line w r w' h heq := by
    cases heq
    exact h.trans (List.prefix_append _ _)

end Keeps

namespace Sample

/-- A system on which nothing fails, and a copy moves all there is at once. -/
def calm : Env where
  view := { limit := 40, cwd := [] }
  umask := 0o022
  fault := fun _ => none
  answers := fun _ =>
    { source := .dense []
      len := 0
      seekSupported := true
      seekByStat := false
      seekByStat_data := nofun
      setup :=
        { openFrom := none, sourceIsFile := true, openTo := none, destIsFile := true,
          setPermissions := none, isRoot := true, fchown := none, aclCopyFd := none,
          ftruncate := none }
      transfer := fun _ => .moved 4096
      seekFault := fun _ => none }
  layout := SparseFile.File.dense
  content_layout := fun _ => rfl

/-- A file and a link to it beside the destination. -/
def linked : Tree := .ofEntries [
  ([ascii "r"], .dir 0o755), ([ascii "f"], .file 0o644 [1, 2]), ([ascii "l"], .link (ascii "f"))]

end Sample

end File
end DracutInstall

/-
What stands in the way of a call of `clone_path`.

On a source that exists, with no system call failing for a reason of its own, the
recursion ends and each call finds what it looks at.  What is left is what a branch
makes: the place of a new directory or link may be taken, or not be there, by the
time the parents and what a link leads to have been cloned; the text of a link may
be empty; and a file may end in a hole.  Where each call is `Unblocked` the run is
`Ok` (`clonePath_ok`).
-/
import DracutInstall.File.CloneDepth
import DracutInstall.File.ClonePermissions
import DracutInstall.File.CloneRetry
import DracutInstall.Lib.LinkCount

namespace DracutInstall
namespace File

open ByteCodec Rust Process UnixPath FileTree

variable {env : Env} {root source target : OsString} {fuel : Nat}

/-! ## Paths that lead somewhere -/

/-- A path that leads to an entry, through `k` links at most. -/
def LeadsIn (v : Tree.View) (t : Tree) (k : Nat) (p : OsString) : Prop :=
  t.isDir (Tree.start v p) = true ∧ ∃ a ≤ k, ∃ loc, t.WalksIn a (Tree.start v p) (steps p) loc

section LeadsIn

variable {t t' : Tree} {j k : Nat} {p d text : OsString} {v : Tree.View} {loc : Loc}

theorem LeadsIn.mono (h : LeadsIn v t j p) (hle : j ≤ k) : LeadsIn v t k p := by
  obtain ⟨hstart, a, ha, loc, hwalk⟩ := h
  exact ⟨hstart, a, Nat.le_trans ha hle, loc, hwalk⟩

theorem LeadsIn.keepsKinds (h : LeadsIn v t k p) (hkeeps : Tree.KeepsKinds t t') :
    LeadsIn v t' k p := by
  obtain ⟨hstart, a, ha, loc, hwalk⟩ := h
  exact ⟨hkeeps.isDir hstart, a, ha, loc, hwalk.keepsKinds hkeeps⟩

theorem leadsIn_of_status {n : Node} (h : t.status v true p = .ok n) : LeadsIn v t v.limit p :=
  (Tree.status_walksIn.mp ⟨n, h⟩).2

theorem LeadsIn.status (h : LeadsIn v t v.limit p) (hne : p ≠ []) :
    ∃ n, t.status v true p = .ok n := Tree.status_walksIn.mpr ⟨hne, h⟩

theorem start_parent (v : Tree.View) (hd : parent p = some d) : Tree.start v d = Tree.start v p := by
  rw [Tree.start, Tree.start, hasRoot_parent hd]

theorem LeadsIn.parent (h : LeadsIn v t k p) (hd : parent p = some d) : LeadsIn v t k d := by
  obtain ⟨hstart, a, ha, loc, hwalk⟩ := h
  rw [LeadsIn, start_parent v hd]
  refine ⟨hstart, ?_⟩
  rcases steps_parent hd with hsteps | ⟨_, hsteps⟩
  · rcases body_parent hd with ⟨_, rfl⟩ | ⟨c, hbody⟩
    · exact absurd hsteps (steps_ne_nil [])
    · rw [steps, hbody, List.append_assoc] at hwalk
      obtain ⟨a₁, a₂, mid, hsum, hfirst, _⟩ := hwalk.split
      rw [hsteps]
      exact ⟨a₁, by omega, mid, hfirst⟩
  · rw [hsteps]
    exact ⟨0, Nat.zero_le k, _, .curDir hstart (.done _)⟩

/-- A link that is found has a name at the end of its path. -/
theorem lookup_link (hd : parent p = some d) (hloc : t.lookup v false false p = .ok loc)
    (htext : t.node loc = some (.link text)) :
    ∃ mid name, steps p = body d ++ [.normal name] ∧ loc = mid ++ [name] ∧
      Tree.Walks t true false (Tree.start v p) (body d) mid := by
  have hwalk := Tree.lookup_ok hloc
  have hnot : t.isDir loc = false := by
    rw [Tree.isDir, htext]
    rfl
  obtain ⟨pre, name, hlast⟩ := hwalk.last_name (hwalk.isDir_start (steps_ne_nil p)) hnot
  have hsteps : steps p = body d ++ [.normal name] := by
    rw [steps] at hlast ⊢
    split at hlast
    · obtain ⟨_, heq⟩ := List.append_inj' hlast rfl
      cases heq
    · rename_i hblank
      rw [List.append_nil] at hlast
      rcases body_parent hd with ⟨hbody, _⟩ | ⟨c, hbody⟩
      · rw [hbody] at hlast
        exact absurd hlast.symm (List.concat_ne_nil _ _)
      · rw [hbody] at hlast
        obtain ⟨rfl, heq⟩ := List.append_inj' hlast rfl
        rw [if_neg hblank, List.append_nil, hbody, heq]
  rw [hsteps] at hwalk
  obtain ⟨mid, hfirst, hname⟩ := hwalk.split (List.cons_ne_nil _ _)
  refine ⟨mid, name, hsteps, ?_, hfirst⟩
  rcases hname.name_cases.2 with ⟨_, _, _, rfl⟩ | ⟨_, _, hfollow, _⟩ | ⟨_, _, _, rfl⟩ | ⟨_, hnew, _⟩
  · rfl
  · cases hfollow
  · rfl
  · cases hnew

/-- The path a link stands for leads there through fewer links. -/
theorem LeadsIn.link (h : LeadsIn v t k p) (hd : UnixPath.parent p = some d)
    (hloc : t.lookup v false false p = .ok loc) (htext : t.node loc = some (.link text)) :
    ∃ j < k, LeadsIn v t j (linkPath p text) := by
  obtain ⟨hstart, a, ha, last, hwalk⟩ := h
  obtain ⟨mid, name, hsteps, rfl, hfirst⟩ := lookup_link hd hloc htext
  rw [hsteps] at hwalk
  obtain ⟨a₁, a₂, mid', hsum, hfirst', hname⟩ := hwalk.split
  obtain rfl := hfirst.unique hfirst'.walks
  obtain ⟨j, rfl, hrest⟩ := hname.link_last htext
  rw [linkPath, hd, Option.getD_some]
  rw [Tree.linkBase] at hrest
  by_cases htextRoot : hasRoot text = true
  · rw [if_pos htextRoot] at hrest ⊢
    have hroot : Tree.start v text = [] := if_pos htextRoot
    refine ⟨j, by omega, ?_⟩
    rw [LeadsIn, hroot]
    exact ⟨Tree.Walks.isDir_root t, j, Nat.le_refl j, last, hrest⟩
  · rw [if_neg htextRoot] at hrest ⊢
    have hrelative : hasRoot text = false := by simpa using htextRoot
    refine ⟨a₁ + j, by omega, ?_⟩
    rw [LeadsIn, start_push v hrelative, start_parent v hd, steps_push hrelative]
    exact ⟨hstart, a₁ + j, Nat.le_refl _, last, hfirst'.append hrest⟩

end LeadsIn

/-! ## Trees of directories, files and links -/

def NoSpecial (t : Tree) : Prop := ∀ loc mode, t.node loc ≠ some (.special mode)

theorem noSpecial_put {t : Tree} (h : NoSpecial t) (loc : Loc) {n : Node}
    (hn : ∀ mode, n ≠ .special mode) : NoSpecial (t.put loc n) := by
  intro l mode hl
  by_cases hfits : t.fits loc = true
  · rw [Tree.put_node hfits] at hl
    split at hl
    · exact hn mode (Option.some.inj hl)
    · exact h l mode hl
  · rw [Tree.put_node_unfit hfits] at hl
    exact h l mode hl

theorem noSpecial_chmodAt {t : Tree} (h : NoSpecial t) (loc : Loc) (m : Nat) :
    NoSpecial (t.chmodAt loc m) := by
  intro l mode hl
  rw [Tree.chmodAt_node] at hl
  split at hl
  · cases hn : t.node l with
    | none =>
        rw [hn] at hl
        cases hl
    | some n =>
        rw [hn] at hl
        cases n with
        | special mode' => exact h l mode' hn
        | dir mode' => cases hl
        | file mode' content => cases hl
        | link text => cases hl
  · exact h l mode hl

theorem change_noSpecial {made : List Made} {f : Tree → Except Errno Tree} {w w' : World}
    {r : Outcome CloneError (Except Errno Unit)} (h : change env made f w = some (r, w'))
    (hw : NoSpecial w.tree) (hf : ∀ t, f w.tree = .ok t → NoSpecial t) : NoSpecial w'.tree := by
  obtain ⟨a, rfl⟩ := change_ends h
  obtain ⟨_, hok | ⟨heq, _⟩⟩ := change_ok h
  · exact hf _ hok
  · rw [heq]
    exact hw

theorem noSpecial_undisturbed : Undisturbed env fun w => NoSpecial w.tree where
  ask f w r w' hw h := by
    show NoSpecial w'.tree
    rw [ask_extends h]
    exact hw
  setPermissions p mode w r w' hw h := by
    refine change_noSpecial h hw fun t ht => ?_
    obtain ⟨loc, rfl⟩ := Tree.chmod_ok ht
    exact noSpecial_chmodAt hw loc mode
  line w l hw := hw
  createDir p mode w r w' hw h := by
    refine change_noSpecial h hw fun t ht => ?_
    obtain ⟨loc, _, _, rfl⟩ := Tree.mkdir_ok ht
    exact noSpecial_put hw loc fun m heq => by cases heq
  symlink text p w r w' hw h := by
    refine change_noSpecial h hw fun t ht => ?_
    obtain ⟨loc, _, _, rfl, _⟩ := Tree.symlink_ok ht
    exact noSpecial_put hw loc fun m heq => by cases heq

theorem copyFile_noSpecial {w w' : World} {r : Outcome CloneError (Except CopyError Unit)}
    (h : copyFile env fuel source target w = some (r, w')) (hw : NoSpecial w.tree) :
    NoSpecial w'.tree := by
  rcases copyFile_tree h with heq | ⟨loc, mode, content, _, _, hput⟩
  · rw [heq]
    exact hw
  · rw [hput]
    exact noSpecial_put hw loc fun m heq => by cases heq

theorem clonePath_noSpecial {w w' : World} {r : Outcome CloneError Unit}
    (h : clonePath env root fuel source w = some (r, w')) (hw : NoSpecial w.tree) :
    NoSpecial w'.tree :=
  noSpecial_undisturbed.clonePath
    (fun _ _ _ _ _ _ _ _ hu hcopy => copyFile_noSpecial hcopy hu) h hw

/-! ## What a branch needs -/

/-- A copy in which no call fails. -/
structure Kernel.Faultless (k : Kernel) : Prop where
  openFrom : k.setup.openFrom = none
  openTo : k.setup.openTo = none
  setPermissions : k.setup.setPermissions = none
  fchown : k.setup.fchown = none
  aclCopyFd : k.setup.aclCopyFd = none
  ftruncate : k.setup.ftruncate = none
  seekSupported : k.seekSupported = true
  seeks : ∀ n, k.seekFault n = none
  moves : k.MovesFrom 0

/-- No system call fails for a reason of its own. -/
structure Env.Faultless (env : Env) : Prop where
  fault : ∀ k, env.fault k = none
  answers : ∀ k, (env.answers k).Faultless

/-- The place of a new directory is there, and nothing is in it. -/
def CanMakeDir (v : Tree.View) (t : Tree) (target : OsString) : Prop :=
  target ≠ [] ∧ ∃ loc, t.walk false true v.limit (Tree.start v target) (steps (trimSeps target)) =
    .ok loc ∧ t.node loc = none

/-- The relative text is not empty, and the place of the link is there with nothing in it. -/
def CanLink (v : Tree.View) (t : Tree) (path target : OsString) : Prop :=
  ∃ text, convertAbsRel path target = some text ∧ text ≠ [] ∧
    ∃ loc, t.lookup v false true target = .ok loc ∧ t.node loc = none

/-- The target can be opened, and what is read from the source has no data or does not
end in a hole. -/
def CanCopy (env : Env) (source target : OsString) (u : World) : Prop :=
  (∃ loc, openTo env u.tree target = .ok loc) ∧
    ((∃ p < (kernelAt env source target u).source.size,
        (kernelAt env source target u).source.data p = true) →
      ¬ (kernelAt env source target u).source.HoleAtEnd)

theorem change_ok_iff {made : List Made} {f : Tree → Except Errno Tree} {w w' : World}
    {r : Except Errno Unit} (hfault : env.fault w.calls = none)
    (h : change env made f w = some (.ok r, w')) : r = .ok () ↔ ∃ t, f w.tree = .ok t := by
  rw [change, call] at h
  dsimp only at h
  rw [hfault] at h
  dsimp only at h
  cases hf : f w.tree with
  | error e =>
      rw [hf] at h
      cases h
      exact iff_of_false (fun heq => by cases heq) fun hok => by
        obtain ⟨t, heq⟩ := hok
        cases heq
  | ok t =>
      rw [hf] at h
      cases h
      exact iff_of_true rfl ⟨t, rfl⟩

theorem mkdir_iff {v : Tree.View} {t : Tree} {mode : Nat} :
    (∃ t', t.mkdir v target mode = .ok t') ↔ CanMakeDir v t target := by
  rw [Tree.mkdir, CanMakeDir]
  by_cases hne : target = []
  · rw [if_pos hne]
    refine iff_of_false ?_ fun h => h.1 hne
    rintro ⟨_, h⟩
    cases h
  · rw [if_neg hne]
    cases hwalk : t.walk false true v.limit (Tree.start v target) (steps (trimSeps target)) with
    | error e =>
        refine iff_of_false ?_ ?_
        · rintro ⟨_, h⟩
          cases h
        · rintro ⟨_, _, h, _⟩
          cases h
    | ok loc =>
        dsimp only
        cases hn : t.node loc with
        | none =>
            rw [Option.isSome_none, if_neg Bool.false_ne_true]
            exact iff_of_true ⟨_, rfl⟩ ⟨hne, loc, rfl, hn⟩
        | some n =>
            rw [Option.isSome_some, if_pos rfl]
            refine iff_of_false ?_ ?_
            · rintro ⟨_, h⟩
              cases h
            · rintro ⟨_, loc', hloc, hnone⟩
              cases hloc
              cases hn.symm.trans hnone

theorem symlink_iff {v : Tree.View} {t : Tree} {text : OsString} :
    (∃ t', t.symlink v text target = .ok t') ↔
      text ≠ [] ∧ ∃ loc, t.lookup v false true target = .ok loc ∧ t.node loc = none := by
  rw [Tree.symlink]
  by_cases hne : text = []
  · rw [if_pos hne]
    refine iff_of_false ?_ fun h => h.1 hne
    rintro ⟨_, h⟩
    cases h
  · rw [if_neg hne]
    cases hloc : t.lookup v false true target with
    | error e =>
        refine iff_of_false ?_ ?_
        · rintro ⟨_, h⟩
          cases h
        · rintro ⟨_, _, h, _⟩
          cases h
    | ok loc =>
        dsimp only
        cases hn : t.node loc with
        | none =>
            rw [Option.isSome_none, if_neg Bool.false_ne_true]
            exact iff_of_true ⟨_, rfl⟩ ⟨hne, loc, rfl, hn⟩
        | some n =>
            rw [Option.isSome_some, if_pos rfl]
            refine iff_of_false ?_ ?_
            · rintro ⟨_, h⟩
              cases h
            · rintro ⟨_, loc', hloc', hnone⟩
              cases hloc'
              cases hn.symm.trans hnone

theorem createDir_ok_iff {mode : Nat} {w w' : World} {r : Except Errno Unit}
    (hfault : env.fault w.calls = none) (h : createDir env target mode w = some (.ok r, w')) :
    r = .ok () ↔ CanMakeDir env.view w.tree target := by
  rw [change_ok_iff hfault h]
  exact mkdir_iff

theorem lnR_ok_iff {path : OsString} {w w' : World} {ret : Except CloneError Unit}
    (hfault : env.fault w.calls = none) (h : lnR env path target w = some (.ok ret, w')) :
    ret = .ok () ↔ CanLink env.view w.tree path target := by
  rw [lnR] at h
  cases htext : convertAbsRel path target with
  | none =>
      rw [htext] at h
      cases h
      refine iff_of_false (fun heq => by cases heq) ?_
      rintro ⟨text, hsome, _⟩
      cases htext.symm.trans hsome
  | some text =>
      rw [htext] at h
      obtain ⟨r, w₁, hmade, h₁⟩ := change_bind h
      obtain ⟨hret, _⟩ := pure_eq_some.mp h₁
      have hmade' := change_ok_iff hfault hmade
      rw [symlink_iff] at hmade'
      have hret' : ret = .ok () ↔ r = .ok () := by
        rw [Outcome.ok.inj hret]
        cases r with
        | ok u => exact iff_of_true rfl rfl
        | error e => exact iff_of_false (fun heq => by cases heq) fun heq => by cases heq
      rw [hret', hmade']
      constructor
      · rintro ⟨hne, hplace⟩
        exact ⟨text, htext, hne, hplace⟩
      · rintro ⟨text', hsome, hne, hplace⟩
        obtain rfl := Option.some.inj (htext.symm.trans hsome)
        exact ⟨hne, hplace⟩

/-! ## Copies -/

/-- Where the target can be opened the copy fails for no reason but a hole. -/
theorem kernelAt_works (hcalm : env.Faultless) {u : World} {n : Node} {loc : Loc}
    (hspecial : NoSpecial u.tree) (hfrom : u.tree.status env.view true source = .ok n)
    (hfile : n.isFile = true) (hopen : openTo env u.tree target = .ok loc) :
    (kernelAt env source target u).Works where
  unchanged := by
    have hsame (same : Bool) (content : List UInt8) :
        (readContent same true content).length = content.length := by
      cases same with
      | true => exact List.length_replicate
      | false => rfl
    have hftruncate := (hcalm.answers u.copies).ftruncate
    rw [kernelAt, copyKernel]
    dsimp only
    rw [SparseFile.File.size, env.content_layout, hftruncate]
    exact (hsame _ _).symm
  openFrom := by
    rw [kernelAt, copyKernel]
    dsimp only
    rw [(hcalm.answers u.copies).openFrom, hfrom]
    rfl
  sourceIsFile := by
    rw [kernelAt, copyKernel]
    dsimp only
    rw [hfrom]
    exact hfile
  openTo := by
    rw [kernelAt, copyKernel]
    dsimp only
    rw [(hcalm.answers u.copies).openTo, hopen]
    rfl
  destIsFile := by
    rw [kernelAt_destIsFile hopen]
    cases hn : u.tree.node loc with
    | none => rfl
    | some n =>
        obtain ⟨hloc, hdir⟩ := openTo_ok hopen
        have hwalk := Tree.lookup_ok hloc
        rcases hwalk.ends_at (hwalk.isDir_start (steps_ne_nil target)) with
          ⟨hnone, _⟩ | ⟨n', hn', hlink⟩
        · cases hn.symm.trans hnone
        · obtain rfl := Option.some.inj (hn.symm.trans hn')
          rw [Tree.isDir, hn] at hdir
          cases n with
          | file mode content => rfl
          | dir mode => cases hdir
          | link text => cases hlink
          | special mode => exact absurd hn (hspecial loc mode)
  setPermissions := (hcalm.answers u.copies).setPermissions
  fchown := (hcalm.answers u.copies).fchown
  aclCopyFd := (hcalm.answers u.copies).aclCopyFd
  ftruncate := (hcalm.answers u.copies).ftruncate
  seekSupported := (hcalm.answers u.copies).seekSupported
  seeks := (hcalm.answers u.copies).seeks
  moves := (hcalm.answers u.copies).moves

/-- A target that cannot be opened ends the copy. -/
theorem copy_not_opened {u : World} {e : Errno} (hcalm : env.Faultless) (source : OsString)
    (hopen : openTo env u.tree target = .error e) (fuel : Nat) (flags : Flags) :
    ∃ c, copy (kernelAt env source target u) fuel flags = some c ∧ ∀ n, c.result ≠ .ok n := by
  have hto : (kernelAt env source target u).setup.openTo = some e := by
    rw [kernelAt, copyKernel]
    dsimp only
    rw [(hcalm.answers u.copies).openTo, hopen]
    rfl
  cases hfiles : openFiles (kernelAt env source target u) with
  | error e' =>
      refine ⟨{ result := .error e', dst := none, flags }, ?_, fun n heq => by cases heq⟩
      rw [copy, hfiles]
  | ok u =>
      have hnone := (openFiles_ok hfiles).2.2
      rw [hto] at hnone
      cases hnone

theorem copyFile_ends_iff (hcalm : env.Faultless) {u : World} {n : Node} (target : OsString)
    (hspecial : NoSpecial u.tree) (hfrom : u.tree.status env.view true source = .ok n)
    (hfile : n.isFile = true) :
    ∃ fuel c, copy (kernelAt env source target u) fuel u.flags = some c ∧
      ((∃ n, c.result = .ok n) ↔ CanCopy env source target u) := by
  cases hopen : openTo env u.tree target with
  | error e =>
      obtain ⟨c, hcopy, hfails⟩ := copy_not_opened hcalm source hopen 0 u.flags
      refine ⟨0, c, hcopy, iff_of_false ?_ ?_⟩
      · rintro ⟨n, hok⟩
        exact hfails n hok
      · rintro ⟨⟨loc, hloc⟩, _⟩
        cases hopen.symm.trans hloc
  | ok loc =>
      obtain ⟨fuel, c, hcopy, hends⟩ :=
        (kernelAt_works hcalm hspecial hfrom hfile hopen).ends u.flags
      refine ⟨fuel, c, hcopy, hends.trans ?_⟩
      exact ⟨fun h => ⟨⟨loc, hopen⟩, h⟩, fun h => h.2⟩

theorem copyFile_ok_iff (hcalm : env.Faultless) {u u' : World} {n : Node}
    {ret : Except CopyError Unit} (hspecial : NoSpecial u.tree)
    (hfrom : u.tree.status env.view true source = .ok n) (hfile : n.isFile = true)
    (h : copyFile env fuel source target u = some (.ok ret, u')) :
    ret = .ok () ↔ CanCopy env source target u := by
  obtain ⟨c, hcopy, hret, _⟩ := copyFile_cases h
  obtain ⟨fuel', c', hcopy', hends⟩ :=
    copyFile_ends_iff hcalm target hspecial hfrom hfile
  obtain rfl := copy_agree hcopy hcopy'
  rw [← hends, hret]
  cases c.result with
  | ok n => exact iff_of_true rfl ⟨n, rfl⟩
  | error e =>
      refine iff_of_false (fun heq => by cases heq) ?_
      rintro ⟨n, heq⟩
      cases heq

theorem copyFile_comes_back (hcalm : env.Faultless) {u : World} {n : Node}
    (hspecial : NoSpecial u.tree) (hfrom : u.tree.status env.view true source = .ok n)
    (hfile : n.isFile = true) : ∃ m out, copyFile env m source target u = some out := by
  obtain ⟨fuel, c, hcopy, _⟩ := copyFile_ends_iff hcalm target hspecial hfrom hfile
  rw [kernelAt] at hcopy
  refine ⟨fuel, ?_⟩
  rw [copyFile]
  dsimp only
  rw [hcopy]
  dsimp only
  split
  · exact ⟨_, rfl⟩
  · exact ⟨_, rfl⟩

/-! ## What stands in the way -/

/-- A call in `v` comes to make a directory in `u`. -/
inductive MakesDir (env : Env) (root : OsString) (f : Nat) (s : OsString) (v u : World) : Prop
  | intro {n before relaxed after w₁}
      (hentry : AtEntry env root (clonePath env root f) s v n before relaxed after)
      (hlink : n.isLink = false) (hdir : isDir env s after = some (.ok true, w₁))
      (hmakes : u = w₁.line (.clonePathMkdir s (targetOf root s)))

/-- A call in `v` comes to make a link in `u`, behind its call on `path`. -/
inductive MakesLink (env : Env) (root : OsString) (f : Nat) (s : OsString) (v : World) :
    OsString → World → Prop
  | intro {n before relaxed after text w₁ w₂}
      (hentry : AtEntry env root (clonePath env root f) s v n before relaxed after)
      (hlink : n.isLink = true) (hread : readLink env s after = some (.ok (.ok text), w₁))
      (hclone : clonePath env root f (linkPath s text) w₁ = some (.ok (), w₂)) :
      MakesLink env root f s v (linkPath s text)
        ((w₂.line (.clonePathSymlink (linkPath s text) (targetOf root s))).line
          (.lnRSymlink (targetOf root (linkPath s text)) (targetOf root s)))

/-- What the call is about to make can be made. -/
def Unblocked (env : Env) (root : OsString) (f : Nat) (s : OsString) (v : World) : Prop :=
  (∀ u, MakesDir env root f s v u → CanMakeDir env.view u.tree (targetOf root s)) ∧
  (∀ u, MakesCopy env root f s v u → CanCopy env s (targetOf root s) u) ∧
  ∀ path u, MakesLink env root f s v path u →
    CanLink env.view u.tree (targetOf root path) (targetOf root s)

/-- The source leads somewhere, in a tree without special entries. -/
structure Clonable (env : Env) (source : OsString) (w : World) : Prop where
  plain : NoSpecial w.tree
  leads : LeadsIn env.view w.tree env.view.limit source

theorem AtEntry.plain {w before after : World} {n : Node} {relaxed : Option (OsString × Nat)}
    (hentry : AtEntry env root (clonePath env root fuel) source w n before relaxed after)
    (hw : NoSpecial w.tree) : NoSpecial after.tree :=
  noSpecial_undisturbed.atEntry hentry
    (fun _ _ _ _ _ _ hw₁ hrun => clonePath_noSpecial hrun hw₁) hw

theorem AtEntry.ne_nil {w before after : World} {n : Node} {relaxed : Option (OsString × Nat)}
    (hentry : AtEntry env root (clonePath env root fuel) source w n before relaxed after) :
    source ≠ [] := by
  cases hentry with
  | intro _ hparent _ _ _ => exact ne_nil_of_parent hparent

/-- The call on what a link leads to is on a path through fewer links. -/
theorem AtEntry.leads {k : Nat} {text : OsString} {w before after w₁ : World} {n : Node}
    {relaxed : Option (OsString × Nat)}
    (hentry : AtEntry env root (clonePath env root fuel) source w n before relaxed after)
    (hread : readLink env source after = some (.ok (.ok text), w₁))
    (h : LeadsIn env.view w.tree k source) :
    ∃ j < k, LeadsIn env.view w₁.tree j (linkPath source text) := by
  obtain ⟨_, hbefore, hafter⟩ := hentry.found
  obtain ⟨hsame, hok⟩ := ask_ok hread
  obtain ⟨loc, hloc, htext⟩ := Tree.status_lookup (Tree.readLink_ok (hok text rfl))
  rw [hsame.tree]
  cases hentry with
  | intro _ hparent _ _ _ => exact (h.keepsKinds (hbefore.trans hafter)).link hparent hloc htext

theorem Clonable.parent {dir : OsString} {w w₁ : World} (h : Clonable env source w)
    (hmissing : Missing env root source w w₁) (hdir : UnixPath.parent source = some dir) :
    Clonable env dir w₁ where
  plain := hmissing.tree ▸ h.plain
  leads := hmissing.tree ▸ h.leads.parent hdir

theorem Clonable.link {text : OsString} {w before after w₁ : World} {n : Node}
    {relaxed : Option (OsString × Nat)} (h : Clonable env source w)
    (hentry : AtEntry env root (clonePath env root fuel) source w n before relaxed after)
    (hread : readLink env source after = some (.ok (.ok text), w₁)) :
    Clonable env (linkPath source text) w₁ where
  plain := by
    rw [ask_extends hread]
    exact hentry.plain h.plain
  leads := by
    obtain ⟨j, hlt, hleads⟩ := hentry.leads hread h.leads
    exact hleads.mono (Nat.le_of_lt hlt)

theorem Nested.clonable {f : Nat} {s : OsString} {w v : World}
    (h : Nested env root fuel source w f s v) (hsound : Clonable env source w) : Clonable env s v := by
  induction h with
  | self => exact hsound
  | parent hmissing hdir _ ih => exact ih (hsound.parent hmissing hdir)
  | link hentry _ hread _ ih => exact ih (hsound.link hentry hread)

/-- What the path leads to is a directory or a file. -/
theorem Clonable.kind {w : World} (h : Clonable env source w) (hne : source ≠ []) :
    ∃ n, w.tree.status env.view true source = .ok n ∧ (n.isDir = true ∨ n.isFile = true) := by
  obtain ⟨n, hstatus⟩ := h.leads.status hne
  obtain ⟨loc, hwalk, hn⟩ := Tree.status_ok hstatus
  obtain ⟨n', hn', hlink⟩ := hwalk.ends (hwalk.isDir_start (steps_ne_nil source))
  obtain rfl := Option.some.inj (hn.symm.trans hn')
  refine ⟨n, hstatus, ?_⟩
  cases n with
  | dir mode => exact .inl rfl
  | file mode content => exact .inr rfl
  | link text => cases hlink
  | special mode => exact absurd hn (h.plain loc mode)

theorem Clonable.of_keepsKinds {w w' : World} (h : Clonable env source w) (hplain : NoSpecial w'.tree)
    (hkeeps : Tree.KeepsKinds w.tree w'.tree) : Clonable env source w' :=
  ⟨hplain, h.leads.keepsKinds hkeeps⟩

/-- When it has come to its branch too. -/
theorem Clonable.atEntry {w before after : World} {n : Node} {relaxed : Option (OsString × Nat)}
    (h : Clonable env source w)
    (hentry : AtEntry env root (clonePath env root fuel) source w n before relaxed after) :
    Clonable env source after := by
  obtain ⟨_, hbefore, hafter⟩ := hentry.found
  exact h.of_keepsKinds (hentry.plain h.plain) (hbefore.trans hafter)

theorem isDir_answers {p : OsString} {n : Node} {w w' : World} {b : Bool}
    (hfault : env.fault w.calls = none) (hstatus : w.tree.status env.view true p = .ok n)
    (h : isDir env p w = some (.ok b, w')) : b = n.isDir := by
  obtain ⟨r, w₁, hask, h₁⟩ := bind_eq_ok.mp h
  obtain ⟨w₂, hanswer, _⟩ := ask_answers hfault (Tree.status · env.view true p)
  rw [hstatus] at hanswer
  obtain rfl := Outcome.ok.inj (ends_unique hanswer hask).1
  exact Outcome.ok.inj (pure_eq_some.mp h₁).1

theorem isFile_answers {p : OsString} {n : Node} {w w' : World} {b : Bool}
    (hfault : env.fault w.calls = none) (hstatus : w.tree.status env.view true p = .ok n)
    (h : isFile env p w = some (.ok b, w')) : b = n.isFile := by
  obtain ⟨r, w₁, hask, h₁⟩ := bind_eq_ok.mp h
  obtain ⟨w₂, hanswer, _⟩ := ask_answers hfault (Tree.status · env.view true p)
  rw [hstatus] at hanswer
  obtain rfl := Outcome.ok.inj (ends_unique hanswer hask).1
  exact Outcome.ok.inj (pure_eq_some.mp h₁).1

/-- A copy is made of a file. -/
theorem MakesCopy.file {f : Nat} {s : OsString} {v u : World} (hsound : Clonable env s v)
    (h : MakesCopy env root f s v u) :
    NoSpecial u.tree ∧ ∃ n, u.tree.status env.view true s = .ok n ∧ n.isFile = true := by
  cases h with
  | @intro _ _ _ after w₁ w₂ hentry hlink hdir hfile hcopies =>
      obtain ⟨n, hstatus, hisFile⟩ := (isFile_ok hfile).2 rfl
      have hplain : NoSpecial w₁.tree := by
        rw [isDir_tree hdir]
        exact hentry.plain hsound.plain
      have htree := isFile_tree hfile
      have hsame : u.tree = w₁.tree := by
        rw [hcopies]
        exact htree
      rw [hsame]
      exact ⟨hplain, n, hstatus, hisFile⟩

/-! ## Calls that are not in the way -/

section Succeeds

variable (hcalm : env.Faultless)

include hcalm

/-- A branch with nothing in its way succeeds, if its call on what the link leads to does. -/
theorem EntryEnds.succeeds {w before after u : World} {n : Node}
    {relaxed : Option (OsString × Nat)} {r : Outcome CloneError (Except CloneError Unit)}
    (hsound : Clonable env source w) (hself : Unblocked env root fuel source w)
    (hentry : AtEntry env root (clonePath env root fuel) source w n before relaxed after)
    (hclone : ∀ text w₁ r w₂, n.isLink = true →
      readLink env source after = some (.ok (.ok text), w₁) →
      clonePath env root fuel (linkPath source text) w₁ = some (r, w₂) → r = .ok ())
    (hends : EntryEnds env root (clonePath env root fuel) fuel source (targetOf root source) n after
      r u) : r = .ok (.ok ()) := by
  obtain ⟨hdirs, hcopies, hlinks⟩ := hself
  cases hends with
  | unread hlink hread =>
      obtain ⟨hstatus, _, hkinds⟩ := hentry.found
      obtain ⟨n', hstatus', hkind⟩ := Tree.status_keepsKinds hkinds hstatus
      cases n with
      | link text =>
          obtain rfl := (hkind.2.2 text).mp rfl
          have htext : after.tree.readLink env.view source = .ok text := by
            rw [Tree.readLink, hstatus']
          obtain ⟨w', hanswer, _⟩ := ask_answers (hcalm.fault after.calls)
            (Tree.readLink · env.view source)
          rw [htext] at hanswer
          cases (ends_unique hanswer hread).1
      | dir mode => cases hlink
      | file mode content => cases hlink
      | special mode => cases hlink
  | failed hlink hread hrun => cases hclone _ _ _ _ hlink hread hrun
  | unwound hlink hread hrun => cases hclone _ _ _ _ hlink hread hrun
  | link hlink hread hrun hmade =>
      have hcan := hlinks _ _ (.intro hentry hlink hread hrun)
      rw [(lnR_ok_iff (hcalm.fault _) hmade).mpr hcan]
  | dir hlink hdir hmade =>
      have hcan := hdirs _ (.intro hentry hlink hdir rfl)
      rw [(createDir_ok_iff (hcalm.fault _) hmade).mpr hcan]
      rfl
  | file hlink hdir hfile hcopy =>
      have hmakes : MakesCopy env root fuel source w _ := .intro hentry hlink hdir hfile rfl
      obtain ⟨hplain, n', hfrom, hisFile⟩ := hmakes.file hsound
      rw [(copyFile_ok_iff hcalm hplain hfrom hisFile hcopy).mpr (hcopies _ hmakes)]
      rfl
  | other hlink hdir hfile =>
      obtain ⟨n', hstatus, hkind⟩ := (hsound.atEntry hentry).kind hentry.ne_nil
      have hnoDir := isDir_answers (hcalm.fault _) hstatus hdir
      rw [← isDir_tree hdir] at hstatus
      have hnoFile := isFile_answers (hcalm.fault _) hstatus hfile
      rw [← hnoDir, ← hnoFile] at hkind
      rcases hkind with heq | heq
      · cases heq
      · cases heq

/-- A run with nothing in the way of its calls returns `Ok`, if it comes back. -/
theorem clonePath_ok {w w' : World} {r : Outcome CloneError Unit} (hsound : Clonable env source w)
    (hall : EachCall env root (Unblocked env root) fuel source w)
    (hrun : clonePath env root fuel source w = some (r, w')) : r = .ok () := by
  induction fuel generalizing source w w' r with
  | zero => cases hrun
  | succ fuel ih =>
      have hparents {dir w₁ r w₂} (hmissing : Missing env root source w w₁)
          (hdir : parent source = some dir)
          (h₁ : clonePath env root fuel dir w₁ = some (r, w₂)) : r = .ok () :=
        ih (hsound.parent hmissing hdir) (hall.parent hmissing hdir) h₁
      have hbehind {dir w₁ w₂} (hmissing : Missing env root source w w₁)
          (h₁ : clonePath env root fuel dir w₁ = some (.ok (), w₂)) : Clonable env source w₂ := by
        refine hsound.of_keepsKinds (clonePath_noSpecial h₁ (hmissing.tree ▸ hsound.plain)) ?_
        rw [← hmissing.tree]
        exact clonePath_keepsKinds h₁
      have hbranch {n before relaxed after r u}
          (hentry : AtEntry env root (clonePath env root fuel) source w n before relaxed after)
          (hends : EntryEnds env root (clonePath env root fuel) fuel source (targetOf root source) n
            after r u) : r = .ok (.ok ()) := by
        refine hends.succeeds hcalm hsound (hall _ _ _ (.self _ _ _)) hentry ?_
        intro text w₁ r w₂ hlink hread h₁
        exact ih (hsound.link hentry hread) (hall.link hentry hlink hread) h₁
      cases cloneStep_ends hrun with
      | found _ => rfl
      | top _ _ => rfl
      | parentFailed hmissing hdir h₁ => cases hparents hmissing hdir h₁
      | parentUnwound hmissing hdir h₁ => cases hparents hmissing hdir h₁
      | @noSource dir e w₁ w₂ _ hmissing hdir h₁ hstatus =>
          obtain ⟨n, hfound⟩ := (hbehind hmissing h₁).leads.status (ne_nil_of_parent hdir)
          obtain ⟨n', hentry⟩ := Tree.status_unfollowed hfound
          obtain ⟨w₃, hanswer, _⟩ := ask_answers (hcalm.fault w₂.calls)
            (Tree.status · env.view false source)
          rw [hentry] at hanswer
          cases (ends_unique hanswer hstatus).1
      | notRelaxed _ _ _ _ hrelax =>
          obtain ⟨relaxed, w₄, hanswer⟩ := relax_answers hcalm.fault (targetOf root source) _
          cases (ends_unique hanswer hrelax).1
      | left hentry hends => cases hbranch hentry hends
      | unwound hentry hends => cases hbranch hentry hends
      | notRestored hentry hends hrestore =>
          obtain ⟨w₄, hok⟩ := restoreSucceeds_of_faultless hcalm.fault _ _ _
            (Nested.self (fuel + 1) source w) _ _ _ _ _ _ hentry hends
          cases (ends_unique hok hrestore).1
      | done hentry hends _ =>
          obtain rfl := Outcome.ok.inj (hbranch hentry hends)
          rfl

/-- The run comes back, whatever stands in its way. -/
theorem clonePath_comes_back (root : OsString) {w : World} (hsound : Clonable env source w) :
    ∃ fuel out, clonePath env root fuel source w = some out := by
  obtain ⟨N, hN⟩ := depth_of_descent (fun k source w => LeadsIn env.view w.tree k source)
    (fun k source dir w w₁ h hmissing hdir => hmissing.tree ▸ h.parent hdir)
    (fun k source fuel n before relaxed after text w w₁ h hentry _ hread => hentry.leads hread h)
    env.view.limit source w hsound.leads
  refine clonePath_returns hN fun fuel f s v u hnested hcopies => ?_
  obtain ⟨hplain, n, hfrom, hisFile⟩ := hcopies.file (hnested.clonable hsound)
  exact copyFile_comes_back hcalm hplain hfrom hisFile

end Succeeds

namespace Sample

theorem calm_faultless : calm.Faultless where
  fault _ := rfl
  answers _ := ⟨rfl, rfl, rfl, rfl, rfl, rfl, rfl, fun _ => rfl, fun _ _ => trivial⟩

end Sample

end File
end DracutInstall

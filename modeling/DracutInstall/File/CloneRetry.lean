/-
What a later `clone_path` makes of a copy that has failed.

The guard asks whether there is an entry at the target, not what is in it.  A copy
that fails once it has opened the target leaves it there, emptied, extended or
filled in part; the next call returns at once.  `clonePath_retry` says when that
does no harm.
-/
import DracutInstall.File.CloneTree
import DracutInstall.File.CopyFailure

namespace DracutInstall
namespace File

open ByteCodec Rust Process UnixPath FileTree

variable {env : Env} {root source target : OsString} {fuel : Nat}

/-! ## Contents that differ -/

/-- The source and the target lead to files whose contents differ. -/
def Differs (v : Tree.View) (source target : OsString) (t : Tree) : Prop :=
  ∃ mode content mode' content', t.status v true source = .ok (.file mode content) ∧
    t.status v true target = .ok (.file mode' content') ∧ content' ≠ content

theorem status_alike {v : Tree.View} {t t' : Tree} (h : Tree.Alike t t') {follow : Bool}
    {p : OsString} {mode : Nat} {content : List UInt8}
    (hstatus : t'.status v follow p = .ok (.file mode content)) :
    ∃ mode', t.status v follow p = .ok (.file mode' content) := by
  obtain ⟨loc, hloc, hn⟩ := Tree.status_lookup hstatus
  obtain ⟨n, hn', hlike⟩ := h.back loc _ hn
  have hback : t.lookup v follow false p = .ok loc := Tree.lookup_keepsKinds h.back.keepsKinds hloc
  have hfound : t.status v follow p = .ok n := by
    rw [Tree.status, hback]
    simp only [hn']
  cases n with
  | file mode' content' =>
      obtain ⟨_, rfl⟩ := Node.file.inj hlike
      exact ⟨mode', hfound⟩
  | dir mode' => cases hlike
  | link text => cases hlike
  | special mode' => cases hlike

theorem Differs.of_alike {v : Tree.View} {t t' : Tree} (h : Tree.Alike t t')
    (hdiffers : Differs v source target t') : Differs v source target t := by
  obtain ⟨mode, content, mode', content', hsource, htarget, hne⟩ := hdiffers
  obtain ⟨mode₁, hsource₁⟩ := status_alike h hsource
  obtain ⟨mode₂, htarget₂⟩ := status_alike h htarget
  exact ⟨mode₁, content, mode₂, content', hsource₁, htarget₂, hne⟩

theorem differs_alike {v : Tree.View} {t t' : Tree} (h : Tree.Alike t t') :
    Differs v source target t' ↔ Differs v source target t :=
  ⟨fun hdiffers => hdiffers.of_alike h, fun hdiffers => hdiffers.of_alike ⟨h.back, h.forth⟩⟩

theorem status_of_lookup {v : Tree.View} {t : Tree} {follow : Bool} {p : OsString} {loc : Loc}
    {n : Node} (hloc : t.lookup v follow false p = .ok loc) (hn : t.node loc = some n) :
    t.status v follow p = .ok n := by
  rw [Tree.status, hloc]
  simp only [hn]

/-- A file can be put where `open` leads. -/
theorem openTo_fits {t : Tree} {loc : Loc} (hopen : openTo env t target = .ok loc)
    (hfile : ∀ n, t.node loc = some n → n.isFile = true) : t.fits loc = true := by
  have hwalk := Tree.lookup_ok (openTo_ok hopen).1
  cases hn : t.node loc with
  | none =>
      refine hwalk.fits (fun name hname => entryName_of_mem_steps hname) ?_ hn
      obtain ⟨m, hm⟩ := Tree.isDir_iff.mp (hwalk.isDir_start (steps_ne_nil target))
      rw [hm]
      exact Option.some_ne_none _
  | some n =>
      refine Tree.fits_of_node hn ?_
      cases n with
      | file mode content => rfl
      | dir mode => cases hfile _ hn
      | link text => cases hfile _ hn
      | special mode => cases hfile _ hn

/-- Once the target has been written, it differs by what has been written. -/
theorem differs_put {t : Tree} {loc l : Loc} {mode mode' : Nat} {content dst : List UInt8}
    (hopen : openTo env t target = .ok loc)
    (hfile : ∀ n, t.node loc = some n → n.isFile = true)
    (hsource : t.lookup env.view true false source = .ok l)
    (hnode : t.node l = some (.file mode content)) :
    Differs env.view source target (t.put loc (.file mode' dst)) ↔ loc ≠ l ∧ dst ≠ content := by
  have hfits := openTo_fits hopen hfile
  have hput : (t.put loc (.file mode' dst)).node loc = some (.file mode' dst) := by
    rw [Tree.put_node hfits, if_pos rfl]
  have hkinds : Tree.KeepsKinds t (t.put loc (.file mode' dst)) := keepsKinds_putFile hfile
  have htarget : (t.put loc (.file mode' dst)).status env.view true target =
      .ok (.file mode' dst) :=
    status_of_lookup (Tree.lookup_filled hkinds (fun _ => ⟨_, hput, .inl rfl⟩) (openTo_ok hopen).1)
      hput
  have hsource' := Tree.lookup_keepsKinds hkinds hsource
  by_cases heq : loc = l
  · -- one file: what is read from it is what has been written
    subst heq
    refine iff_of_false ?_ fun h => h.1 rfl
    intro hdiffers
    obtain ⟨m, c, m', c', hs, ht, hne⟩ := hdiffers
    rw [status_of_lookup hsource' hput] at hs
    rw [htarget] at ht
    cases hs
    cases ht
    exact hne rfl
  · have hnode' : (t.put loc (.file mode' dst)).node l = some (.file mode content) := by
      rw [Tree.put_node_ne fun h => heq h.symm]
      exact hnode
    have hread := status_of_lookup hsource' hnode'
    constructor
    · intro hdiffers
      obtain ⟨m, c, m', c', hs, ht, hne⟩ := hdiffers
      rw [hread] at hs
      rw [htarget] at ht
      cases hs
      cases ht
      exact ⟨heq, hne⟩
    · intro h
      exact ⟨mode, content, mode', dst, hread, htarget, h.2⟩

/-! ## Copies -/

/-- The answers to the copy that is made in `u`. -/
def kernelAt (env : Env) (source target : OsString) (u : World) : Kernel :=
  copyKernel env (env.answers u.copies) u.tree source target

/-- What a copy does to the tree, by how far it gets. -/
theorem copyFile_cases {u u' : World} {ret : Except CopyError Unit}
    (h : copyFile env fuel source target u = some (.ok ret, u')) :
    ∃ c, copy (kernelAt env source target u) fuel u.flags = some c ∧
      ret = c.result.map (fun _ => ()) ∧ ((c.dst = none ∧ u'.tree = u.tree) ∨
        ∃ dst loc l mode mode' content, c.dst = some dst ∧ openTo env u.tree target = .ok loc ∧
          u.tree.lookup env.view true false source = .ok l ∧
          u.tree.node l = some (.file mode content) ∧
          u'.tree = if (kernelAt env source target u).setup.destIsFile = true then
            u.tree.put loc (.file mode' dst) else u.tree) := by
  rw [copyFile] at h
  dsimp only at h
  cases hcopy : copy (kernelAt env source target u) fuel u.flags with
  | none =>
      rw [kernelAt] at hcopy
      rw [hcopy] at h
      cases h
  | some c =>
      have hcopy' := hcopy
      rw [kernelAt] at hcopy'
      rw [hcopy'] at h
      dsimp only at h
      cases hdst : c.dst with
      | none =>
          rw [hdst] at h
          cases h
          exact ⟨c, rfl, rfl, .inl ⟨hdst, rfl⟩⟩
      | some dst =>
          obtain ⟨hfrom, hisFile, hto⟩ := openFiles_ok (copy_opened hcopy hdst)
          obtain ⟨l, mode, content, loc, hl, hnode, hloc, _⟩ := copyKernel_ok hfrom hisFile hto
          rw [hdst, hloc] at h
          cases h
          exact ⟨c, rfl, rfl, .inr ⟨dst, loc, l, mode, _, content, hdst, hloc, hl, hnode, rfl⟩⟩

theorem kernelAt_destIsFile {u : World} {loc : Loc} (hopen : openTo env u.tree target = .ok loc) :
    (kernelAt env source target u).setup.destIsFile =
      ((u.tree.node loc).map Node.isFile).getD true := by
  rw [kernelAt, copyKernel]
  dsimp only
  rw [hopen]
  rfl

/-- A target that is opened and is no regular file does not differ. -/
theorem not_differs_of_special {t : Tree} {loc : Loc} {n : Node}
    (hopen : openTo env t target = .ok loc) (hn : t.node loc = some n) (hfile : n.isFile = false) :
    ¬ Differs env.view source target t := by
  intro hdiffers
  obtain ⟨m, c, m', c', _, htarget, _⟩ := hdiffers
  obtain ⟨loc', hwalk, hn'⟩ := Tree.status_ok htarget
  obtain rfl := hwalk.unique (Tree.lookup_ok (openTo_ok hopen).1)
  rw [hn] at hn'
  obtain rfl := Option.some.inj hn'
  cases hfile

/-- The target has not been opened and does not differ, or what has been written to it is
the content of the source. -/
def WritesSource (env : Env) (source target : OsString) (fuel : Nat) (u : World) : Prop :=
  ∀ c, copy (kernelAt env source target u) fuel u.flags = some c →
    match c.dst with
    | none => ¬ Differs env.view source target u.tree
    | some dst => (kernelAt env source target u).setup.destIsFile = true →
        ∀ loc l mode content, openTo env u.tree target = .ok loc →
          u.tree.lookup env.view true false source = .ok l →
          u.tree.node l = some (.file mode content) → loc ≠ l → dst = content

theorem copyFile_differs {u u' : World} {ret : Except CopyError Unit}
    (h : copyFile env fuel source target u = some (.ok ret, u')) :
    ¬ Differs env.view source target u'.tree ↔ WritesSource env source target fuel u := by
  obtain ⟨c, hcopy, _, hend⟩ := copyFile_cases h
  have hunique {c'} (hcopy' : copy (kernelAt env source target u) fuel u.flags = some c') :
      c = c' := Option.some.inj (hcopy.symm.trans hcopy')
  rcases hend with ⟨hdst, htree⟩ | ⟨dst, loc, l, mode, mode', content, hdst, hopen, hl, hnode, htree⟩
  · rw [htree]
    constructor
    · intro hno c' hcopy'
      obtain rfl := hunique hcopy'
      rw [hdst]
      exact hno
    · intro hwrites
      have hno := hwrites c hcopy
      rw [hdst] at hno
      exact hno
  · have hwrites : WritesSource env source target fuel u ↔
        ((kernelAt env source target u).setup.destIsFile = true → loc ≠ l → dst = content) := by
      constructor
      · intro hall hfile
        have hno := hall c hcopy
        rw [hdst] at hno
        exact hno hfile loc l mode content hopen hl hnode
      · intro hdest c' hcopy'
        obtain rfl := hunique hcopy'
        rw [hdst]
        intro hfile loc' l' m' content' hopen' hl' hnode'
        obtain rfl := Except.ok.inj (hopen.symm.trans hopen')
        obtain rfl := Except.ok.inj (hl.symm.trans hl')
        cases hnode.symm.trans hnode'
        exact hdest hfile
    rw [hwrites, htree, kernelAt_destIsFile hopen]
    cases hfile : ((u.tree.node loc).map Node.isFile).getD true with
    | true =>
        have hold (n : Node) (hn : u.tree.node loc = some n) : n.isFile = true := by
          rw [hn] at hfile
          exact hfile
        rw [if_pos rfl, differs_put hopen hold hl hnode]
        constructor
        · intro hno _ hne
          by_contra hcontent
          exact hno ⟨hne, hcontent⟩
        · intro hwritten hboth
          exact hboth.2 (hwritten rfl hboth.1)
    | false =>
        rw [if_neg Bool.false_ne_true]
        cases hn : u.tree.node loc with
        | none =>
            rw [hn] at hfile
            cases hfile
        | some n =>
            rw [hn] at hfile
            have hno : ¬ Differs env.view source target u.tree :=
              not_differs_of_special hopen hn hfile
            exact iff_of_true hno fun heq => by cases heq

/-! ## The call that fails -/

/-- Behind its copy a call sets back a mode. -/
theorem MakesCopy.ends {w u u' w₁ : World} {ret : Except CopyError Unit}
    {r : Outcome CloneError Unit} (h : MakesCopy env root fuel source w u)
    (hcopy : copyFile env fuel source (targetOf root source) u = some (.ok ret, u'))
    (hrun : clonePath env root (fuel + 1) source w = some (r, w₁)) :
    Tree.Alike u'.tree w₁.tree := by
  cases h with
  | intro hentry hlink hdir hfile hcopies =>
      subst hcopies
      rcases hentry.ends (cloneStep_ends hrun) with ⟨e, _, hends⟩ | ⟨_, hends⟩ | ⟨ret', v, hends, hend⟩
      · cases hends with
        | unread hislink _ => cases hlink.symm.trans hislink
        | failed hislink _ _ => cases hlink.symm.trans hislink
      · cases hends with
        | unwound hislink _ _ => cases hlink.symm.trans hislink
        | other _ hdir' hfile' =>
            obtain ⟨_, rfl⟩ := ends_unique hdir hdir'
            cases (ends_unique hfile hfile').1
      · have hsame : v = u' := by
          cases hends with
          | link hislink _ _ _ => cases hlink.symm.trans hislink
          | dir _ hdir' _ => cases (ends_unique hdir hdir').1
          | file _ hdir' hfile' hcopy' =>
              obtain ⟨_, rfl⟩ := ends_unique hdir hdir'
              obtain ⟨_, rfl⟩ := ends_unique hfile hfile'
              exact (ends_unique hcopy hcopy').2.symm
        subst hsame
        rcases hend with ⟨e, _, hrestore⟩ | ⟨_, hrestore⟩
        · exact restore_alike hrestore
        · exact restore_alike hrestore

/-! ## A later call -/

theorem keeps_call_copies (n : Nat) {α : Type} (made : List Made)
    (f : Tree → Except Errno (α × Tree)) :
    Keeps (fun w => n ≤ w.copies) (fun w => n ≤ w.copies) (call env made f) := by
  intro w r w' hw h
  rw [call] at h
  dsimp only at h
  split at h
  · cases h
    exact hw
  · split at h
    · cases h
      exact hw
    · cases h
      exact hw

theorem keeps_change_copies (n : Nat) (made : List Made) (f : Tree → Except Errno Tree) :
    Keeps (fun w => n ≤ w.copies) (fun w => n ≤ w.copies) (change env made f) :=
  keeps_call_copies n made _

theorem copyFile_copies {w w' : World} {r : Outcome CloneError (Except CopyError Unit)}
    (h : copyFile env fuel source target w = some (r, w')) : w'.copies = w.copies + 1 := by
  rw [copyFile] at h
  dsimp only at h
  split at h
  · cases h
  · split at h
    · cases h
      rfl
    · cases h
      rfl

/-- Copies are only added. -/
theorem copies_undisturbed (n : Nat) : Undisturbed env fun w => n ≤ w.copies where
  ask _ := keeps_call_copies n _ _
  setPermissions _ _ := keeps_change_copies n _ _
  line _ _ hw := hw
  createDir _ _ := keeps_change_copies n _ _
  symlink _ _ := keeps_change_copies n _ _

theorem clonePath_copies {n : Nat} {w w' : World} {r : Outcome CloneError Unit}
    (h : clonePath env root fuel source w = some (r, w')) (hw : n ≤ w.copies) : n ≤ w'.copies :=
  (copies_undisturbed n).clonePath (fun _ _ _ _ _ _ _ _ hu hcopy => by
    rw [copyFile_copies hcopy]
    exact Nat.le_succ_of_le hu) h hw

/-- A copy that returns leaves a target that does not differ. -/
theorem copyFile_ok_differs {u u' : World} (hsteady : Steady (env.answers u.copies))
    (h : copyFile env fuel source target u = some (.ok (.ok ()), u')) :
    ¬ Differs env.view source target u'.tree := by
  obtain ⟨c, hcopy, hret, _⟩ := copyFile_cases h
  obtain ⟨n, hn⟩ : ∃ n, c.result = .ok n := by
    cases hresult : c.result with
    | ok n => exact ⟨n, rfl⟩
    | error e =>
        rw [hresult] at hret
        cases hret
  rw [copyFile_differs h]
  intro c' hcopy'
  obtain rfl := Option.some.inj (hcopy.symm.trans hcopy')
  obtain ⟨dst, hdst⟩ := copy_dst hcopy hn
  rw [hdst]
  intro hfile loc l mode content hopen hl hnode hne
  obtain ⟨hfrom, hisFile, hto⟩ := openFiles_ok (copy_opened hcopy hdst)
  obtain ⟨l', mode', content', loc', hl', hnode', hopen', hk⟩ := copyKernel_ok hfrom hisFile hto
  obtain rfl := Except.ok.inj (hopen.symm.trans hopen')
  obtain rfl := Except.ok.inj (hl.symm.trans hl')
  cases hnode.symm.trans hnode'
  rw [kernelAt_destIsFile hopen] at hfile
  obtain ⟨hcontent, hlen, hdestFile⟩ := hk hne fun n hn => by
    rw [hn] at hfile
    exact hfile
  have hregular : (kernelAt env source target u).Regular :=
    ⟨hlen.trans (congrArg List.length hcontent).symm, hdestFile, hsteady.seeks,
      hsteady.fallbackFirst⟩
  have hwritten := (copy_returned hregular hcopy hn).1
  rw [hdst] at hwritten
  exact (Option.some.inj hwritten).trans hcontent

/-- The branch of a regular file copies it. -/
theorem EntryEnds.copies {v before after u : World} {n : Node}
    {relaxed : Option (OsString × Nat)} {mode : Nat} {content : List UInt8}
    {ret : Except CloneError Unit}
    (hentry : AtEntry env root (clonePath env root fuel) source v n before relaxed after)
    (hfile : v.tree.status env.view false source = .ok (.file mode content))
    (hends : EntryEnds env root (clonePath env root fuel) fuel source (targetOf root source) n after
      (.ok ret) u) :
    ∃ u₀ ret', MakesCopy env root fuel source v u₀ ∧ ret = ret'.mapError .copy ∧
      copyFile env fuel source (targetOf root source) u₀ = some (.ok ret', u) := by
  obtain ⟨hstatus, hkinds, hkinds'⟩ := hentry.found
  obtain ⟨n₁, hn₁, hkind₁⟩ := Tree.status_keepsKinds hkinds hfile
  obtain rfl := Except.ok.inj (hstatus.symm.trans hn₁)
  have hnolink : n.isLink = false := hkind₁.isLink
  cases hends with
  | link hlink _ _ _ => cases hnolink.symm.trans hlink
  | dir _ hdir _ =>
      obtain ⟨d, hd, hisDir⟩ := (isDir_ok hdir).2 rfl
      obtain ⟨n₂, hn₂, hkind₂⟩ := Tree.status_keepsKinds hkinds' hstatus
      obtain rfl := Tree.status_unique hn₂ (hkind₂.isLink.trans hnolink) hd
      have hno : d.isDir = false := hkind₂.1.trans hkind₁.1
      cases hno.symm.trans hisDir
  | file hlink hdir hisFile hcopy =>
      exact ⟨_, _, .intro hentry hlink hdir hisFile rfl, rfl, hcopy⟩

/-- A call on a regular file whose parent's call returns `Ok` and that ends in an error of
`copy` has come to a copy that fails. -/
theorem makesCopy_of_err {v w : World} {mode : Nat} {content : List UInt8} {e : CopyError}
    (hfile : v.tree.status env.view false source = .ok (.file mode content))
    (hparent : ∀ dir v₁ r u, Missing env root source v v₁ → parent source = some dir →
      clonePath env root fuel dir v₁ = some (r, u) → r = .ok ())
    (hrun : clonePath env root (fuel + 1) source v = some (.err (.copy e), w)) :
    ∃ u u', MakesCopy env root fuel source v u ∧
      copyFile env fuel source (targetOf root source) u = some (.ok (.error e), u') := by
  obtain ⟨r, hr⟩ : ∃ r : Outcome CloneError Unit, r = .err (.copy e) := ⟨_, rfl⟩
  rw [← hr] at hrun
  cases cloneStep_ends hrun with
  | found _ => cases hr
  | top _ _ => cases hr
  | parentFailed hmissing hdir hclone => cases hparent _ _ _ _ hmissing hdir hclone
  | parentUnwound hmissing hdir hclone => cases hparent _ _ _ _ hmissing hdir hclone
  | noSource _ _ _ _ => cases hr
  | notRelaxed _ _ _ _ hrelax =>
      obtain ⟨e', rfl⟩ := relax_err hrelax
      cases hr
  | left hentry hends =>
      obtain ⟨hstatus, hkinds, _⟩ := hentry.found
      obtain ⟨n₁, hn₁, hkind⟩ := Tree.status_keepsKinds hkinds hfile
      obtain rfl := Except.ok.inj (hstatus.symm.trans hn₁)
      cases hends with
      | unread hlink _ => cases hlink.symm.trans hkind.isLink
      | failed hlink _ _ => cases hlink.symm.trans hkind.isLink
  | unwound _ _ => cases hr
  | notRestored _ _ hrestore =>
      obtain ⟨e', rfl⟩ := restore_err hrestore
      cases hr
  | done hentry hends _ =>
      obtain ⟨u, ret', hcopies, rfl, hcopy⟩ := hends.copies hentry hfile
      cases ret' with
      | ok _ => cases hr
      | error e' =>
          cases hr
          exact ⟨u, _, hcopies, hcopy⟩

theorem MakesCopy.copies {v u : World} {n : Nat} (h : MakesCopy env root fuel source v u)
    (hle : n ≤ v.copies) : n ≤ u.copies := by
  cases h with
  | intro hentry _ hdir hfile hcopies =>
      subst hcopies
      have hafter := (copies_undisturbed n).atEntry hentry
        (fun _ _ _ _ _ _ hw hrun => clonePath_copies hrun hw) hle
      have hcount := (copies_undisturbed n).isFile _ _ _ _
        ((copies_undisturbed n).isDir _ _ _ _ hafter hdir) hfile
      exact hcount

/-- A call on a regular file that returns `Ok` finds its target, or makes it. -/
theorem clonePath_ok_differs {v w : World} {mode : Nat} {content : List UInt8}
    (hfile : v.tree.status env.view false source = .ok (.file mode content))
    (hsteady : ∀ i, v.copies ≤ i → Steady (env.answers i))
    (hrun : clonePath env root fuel source v = some (.ok (), w))
    (hno : ¬ Differs env.view source (targetOf root source) v.tree) :
    ¬ Differs env.view source (targetOf root source) w.tree := by
  cases fuel with
  | zero => cases hrun
  | succ fuel =>
      cases (cloneStep_ends hrun).returns with
      | found hfound =>
          have htree := ask_extends hfound
          rw [htree]
          exact hno
      | top hmissing _ =>
          rw [hmissing.tree]
          exact hno
      | done hentry hends hrestore =>
          obtain ⟨u₀, ret', hcopies, hret, hcopy⟩ := hends.copies hentry hfile
          obtain rfl := mapError_eq_ok hret.symm
          rw [differs_alike (restore_alike hrestore)]
          exact copyFile_ok_differs (hsteady _ (hcopies.copies (Nat.le_refl _))) hcopy

/-- No later call returns `Ok` while the target differs. -/
def NotMistaken (view : Tree.View) (root source : OsString) (t : Tree) : Prop :=
  ∀ (env : Env) (fuel : Nat) (v w : World), env.view = view → v.tree = t →
    (∀ i, v.copies ≤ i → Steady (env.answers i)) →
    clonePath env root fuel source v = some (.ok (), w) →
    ¬ Differs view source (targetOf root source) w.tree

/-- No later call finds a target that differs if none differs now. -/
theorem notMistaken_iff {t : Tree} {mode : Nat} {content : List UInt8}
    (hfile : t.status env.view false source = .ok (.file mode content)) (w : World) (hw : w.tree = t) :
    NotMistaken env.view root source t ↔ ¬ Differs env.view source (targetOf root source) t := by
  constructor
  · intro hnot hdiffers
    have hdiffers' := hdiffers
    obtain ⟨m, c, m', c', _, htarget, _⟩ := hdiffers
    obtain ⟨n, hn⟩ := Tree.status_unfollowed htarget
    let env' : Env := { env with fault := fun _ => none, answers := Sample.calm.answers }
    have hfound : w.tree.status env'.view false (targetOf root source) = .ok n := by
      rw [hw]
      exact hn
    obtain ⟨w', hrun, htree⟩ : ∃ w', clonePath env' root 1 source w = some (.ok (), w') ∧
      w'.tree = w.tree := clonePath_found rfl hfound
    refine hnot env' 1 w w' rfl hw (fun _ _ => ?_) hrun ?_
    · exact ⟨fun _ => rfl, fun _ _ _ _ h => h⟩
    · rw [htree, hw]
      exact hdiffers'
  · intro hno env' fuel v w' hview htree hsteady hrun
    subst htree
    rw [← hview] at hfile hno ⊢
    exact clonePath_ok_differs hfile hsteady hrun hno

/-! ## Failures that do no harm -/

/-- The target path leads to a regular file other than the source, or to where one is made. -/
def LeadsToOther (env : Env) (source target : OsString) (t : Tree) : Prop :=
  ∃ loc l, openTo env t target = .ok loc ∧ t.lookup env.view true false source = .ok l ∧
    loc ≠ l ∧ ∀ n, t.node loc = some n → n.isFile = true

/-- The copy that is made in `u` fails in this call and leaves nothing that can be mistaken
for the source.  Before the target is opened that is so unless a file of other content is
there; then only if no other file was opened or the source is empty; and once bytes are
moved, also where holes are told apart and the source is zeros, or `SEEK_DATA` has found
nothing more. -/
def FailsHarmlessly (env : Env) (source target : OsString) (u : World) (e : CopyError) : Prop :=
  let k := kernelAt env source target u
  match e.call.stage with
  | .opening => ¬ Differs env.view source target u.tree
  | .preparing => LeadsToOther env source target u.tree → k.len = 0
  | .moving => LeadsToOther env source target u.tree →
      k.KeepsHoles ∧ ((∀ b ∈ k.source.content, b = 0) ∨
        (e = ⟨.seekData, .enxio⟩ ∧ ∀ n, k.seekFault n = none))

/-- The file that the target path leads to is read as it is. -/
theorem kernelAt_content {u : World} {loc l : Loc} {mode : Nat} {content : List UInt8}
    (hopened : openFiles (kernelAt env source target u) = .ok ())
    (hdest : (kernelAt env source target u).setup.destIsFile = true)
    (hopen : openTo env u.tree target = .ok loc)
    (hl : u.tree.lookup env.view true false source = .ok l)
    (hnode : u.tree.node l = some (.file mode content)) (hne : loc ≠ l) :
    LeadsToOther env source target u.tree ∧
      (kernelAt env source target u).source.content = content ∧
      (kernelAt env source target u).len = content.length := by
  obtain ⟨hfrom, hisFile, hto⟩ := openFiles_ok hopened
  obtain ⟨l', mode', content', loc', hl', hnode', hopen', hk⟩ := copyKernel_ok hfrom hisFile hto
  obtain rfl := Except.ok.inj (hopen.symm.trans hopen')
  obtain rfl := Except.ok.inj (hl.symm.trans hl')
  cases hnode.symm.trans hnode'
  rw [kernelAt_destIsFile hopen] at hdest
  have hold (n : Node) (hn : u.tree.node loc = some n) : n.isFile = true := by
    rw [hn] at hdest
    exact hdest
  obtain ⟨hcontent, hlen, _⟩ := hk hne hold
  exact ⟨⟨loc, l, hopen, hl, hne, hold⟩, hcontent, hlen⟩

/-- A copy that fails harmlessly has written the source, if it has written. -/
theorem FailsHarmlessly.writesSource {u : World} {e : CopyError} {c : Copied}
    (h : FailsHarmlessly env source target u e)
    (hcopy : copy (kernelAt env source target u) fuel u.flags = some c) (he : c.result = .error e) :
    WritesSource env source target fuel u := by
  intro c' hcopy'
  obtain rfl := Option.some.inj (hcopy.symm.trans hcopy')
  rw [FailsHarmlessly] at h
  cases copy_failed hcopy he with
  | opening hopened hstage hdst =>
      rw [hstage] at h
      rw [hdst]
      exact h
  | preparing hopened hdest hstage hdst =>
      rw [hstage] at h
      rw [hdst]
      intro _ loc l mode content hopen hl hnode hne
      obtain ⟨hother, _, hlen⟩ := kernelAt_content hopened hdest hopen hl hnode hne
      exact (List.eq_nil_of_length_eq_zero (hlen.symm.trans (h hother))).symm
  | moving hopened hprepare hstage hloop hdst =>
      rw [hstage] at h
      rw [hdst]
      intro hdest loc l mode content hopen hl hnode hne
      obtain ⟨hother, hcontent, hlen⟩ := kernelAt_content hopened hdest hopen hl hnode hne
      obtain ⟨hholes, hwhole⟩ := h hother
      obtain ⟨rfl, rfl⟩ := hholes.prepare hprepare
      have hunchanged : (kernelAt env source target u).len =
          (kernelAt env source target u).source.size := by
        rw [hlen, SparseFile.File.size, hcontent]
      rw [copyLoop_failed_content hholes hunchanged hloop hwhole, hcontent]

/-- Before bytes are moved there is no other way. -/
theorem WritesSource.failsHarmlessly {u : World} {e : CopyError} {c : Copied}
    (h : WritesSource env source target fuel u)
    (hcopy : copy (kernelAt env source target u) fuel u.flags = some c) (he : c.result = .error e)
    (hearly : e.call.stage ≠ .moving) : FailsHarmlessly env source target u e := by
  have hwritten := h c hcopy
  rw [FailsHarmlessly]
  cases copy_failed hcopy he with
  | opening hopened hstage hdst =>
      rw [hstage]
      rw [hdst] at hwritten
      exact hwritten
  | preparing hopened hdest hstage hdst =>
      rw [hstage]
      rw [hdst] at hwritten
      rintro ⟨loc, l, hopen, hl, hne, _⟩
      obtain ⟨hfrom, hisFile, hto⟩ := openFiles_ok hopened
      obtain ⟨l', mode, content, loc', hl', hnode, hopen', _⟩ := copyKernel_ok hfrom hisFile hto
      obtain rfl := Except.ok.inj (hl.symm.trans hl')
      obtain ⟨_, _, hlen⟩ := kernelAt_content hopened hdest hopen hl hnode hne
      rw [hlen, ← hwritten hdest loc l mode content hopen hl hnode hne]
      rfl
  | moving hopened hprepare hstage hloop hdst => exact absurd hstage hearly

theorem copyFile_failed {u u' : World} {e : CopyError}
    (h : copyFile env fuel source target u = some (.ok (.error e), u')) :
    ∃ c, copy (kernelAt env source target u) fuel u.flags = some c ∧ c.result = .error e ∧
      (c.dst = none → u'.tree = u.tree) := by
  obtain ⟨c, hcopy, hret, hend⟩ := copyFile_cases h
  refine ⟨c, hcopy, ?_, fun hdst => ?_⟩
  · cases hresult : c.result with
    | ok n =>
        rw [hresult] at hret
        cases hret
    | error e' =>
        rw [hresult] at hret
        cases hret
        rfl
  · rcases hend with ⟨_, htree⟩ | ⟨_, _, _, _, _, _, hsome, _⟩
    · exact htree
    · cases hdst.symm.trans hsome

/-- A copy that fails before it has opened the target changes nothing. -/
theorem copyFile_opening {u u' : World} {e : CopyError}
    (h : copyFile env fuel source target u = some (.ok (.error e), u'))
    (hearly : e.call.stage = .opening) : u'.tree = u.tree := by
  obtain ⟨c, hcopy, he, htree⟩ := copyFile_failed h
  cases copy_failed hcopy he with
  | opening _ _ hdst => exact htree hdst
  | preparing _ _ hstage _ => cases hearly.symm.trans hstage
  | moving _ _ hstage _ _ => cases hearly.symm.trans hstage

/-- What a copy that fails leaves differs unless it has written the source. -/
theorem clonePath_failed {w u u' w₁ : World} {mode : Nat} {content : List UInt8} {e : CopyError}
    {r : Outcome CloneError Unit}
    (hfile : w.tree.status env.view false source = .ok (.file mode content))
    (hcopies : MakesCopy env root fuel source w u)
    (hcopy : copyFile env fuel source (targetOf root source) u = some (.ok (.error e), u'))
    (hrun : clonePath env root (fuel + 1) source w = some (r, w₁)) :
    NotMistaken env.view root source w₁.tree ↔
      WritesSource env source (targetOf root source) fuel u := by
  obtain ⟨n, hn, hkind⟩ := Tree.status_keepsKinds (clonePath_keepsKinds hrun) hfile
  have hisFile : n.isFile = true := hkind.2.1
  cases n with
  | file mode' content' =>
      rw [notMistaken_iff hn w₁ rfl, differs_alike (hcopies.ends hcopy hrun)]
      exact copyFile_differs hcopy
  | dir mode' => cases hisFile
  | link text => cases hisFile
  | special mode' => cases hisFile

/-- A copy has failed in a call on a regular file: no later call returns `Ok` while the
target differs if it has failed harmlessly, and only then if it has failed before it moved
bytes. -/
theorem clonePath_retry {w u u' w₁ : World} {mode : Nat} {content : List UInt8} {e : CopyError}
    {r : Outcome CloneError Unit}
    (hfile : w.tree.status env.view false source = .ok (.file mode content))
    (hcopies : MakesCopy env root fuel source w u)
    (hcopy : copyFile env fuel source (targetOf root source) u = some (.ok (.error e), u'))
    (hrun : clonePath env root (fuel + 1) source w = some (r, w₁)) :
    (FailsHarmlessly env source (targetOf root source) u e →
      NotMistaken env.view root source w₁.tree) ∧
    (e.call.stage ≠ .moving → NotMistaken env.view root source w₁.tree →
      FailsHarmlessly env source (targetOf root source) u e) := by
  obtain ⟨c, hcopied, he, _⟩ := copyFile_failed hcopy
  rw [clonePath_failed hfile hcopies hcopy hrun]
  exact ⟨fun h => h.writesSource hcopied he, fun hearly h => h.failsHarmlessly hcopied he hearly⟩

namespace Sample

/-- The first copy finds no space: when the target is created, or when bytes are moved. -/
def noSpace (opening : Bool) : Env :=
  { calm with answers := fun i =>
      if i = 0 then
        { calm.answers 0 with
          setup := { (calm.answers 0).setup with
            openTo := if opening then some (.other 28) else none }
          transfer := fun _ => .errno (.other 28) }
      else calm.answers i }

theorem noSpace_retried :
    ∃ w, clonePath (noSpace true) (ascii "/r") 9 (ascii "/f") (World.start linked ⟨true, true⟩) =
        some (.err (.copy ⟨.openTo, .other 28⟩), w) ∧
      NotMistaken (noSpace true).view (ascii "/r") (ascii "/f") w.tree := by
  have hends : ((clonePath (noSpace true) (ascii "/r") 9 (ascii "/f")
      (World.start linked ⟨true, true⟩)).any fun out =>
        decide (out.1 = .err (.copy ⟨.openTo, .other 28⟩)) &&
          decide (out.2.tree.status calm.view true (ascii "/r/f") = .error .enoent)) = true := by
    decide +kernel
  obtain ⟨⟨r, w⟩, hrun, hout⟩ := (Option.any_eq_true _ _).mp hends
  obtain ⟨hr, htarget⟩ := Bool.and_eq_true_iff.mp hout
  obtain rfl : r = .err (.copy ⟨.openTo, .other 28⟩) := of_decide_eq_true hr
  have hfile : linked.status (noSpace true).view false (ascii "/f") = .ok (.file 0o644 [1, 2]) := by
    decide +kernel
  have hroot : linked.status (noSpace true).view false (targetOf (ascii "/r") (ascii "/")) =
      .ok (.dir 0o755) := by decide +kernel
  obtain ⟨u, u', hcopies, hcopy⟩ := makesCopy_of_err hfile (fun dir v r u hmissing hdir hclone => by
    obtain rfl : ascii "/" = dir := Option.some.inj hdir
    obtain ⟨u', hfound, _⟩ : ∃ u', clonePath (noSpace true) (ascii "/r") 8 (ascii "/") v =
        some (.ok (), u') ∧ u'.tree = v.tree :=
      clonePath_found rfl (by rw [hmissing.tree]; exact hroot)
    exact (ends_unique hclone hfound).1) hrun
  refine ⟨w, hrun, (clonePath_retry hfile hcopies hcopy hrun).1 ?_⟩
  -- the target is not opened, and is not there either
  show ¬ Differs (noSpace true).view (ascii "/f") (targetOf (ascii "/r") (ascii "/f")) u.tree
  rw [← copyFile_opening hcopy rfl, ← differs_alike (hcopies.ends hcopy hrun)]
  intro hdiffers
  obtain ⟨_, _, _, _, _, hfound, _⟩ := hdiffers
  have hmissing : w.tree.status (noSpace true).view true (targetOf (ascii "/r") (ascii "/f")) =
      .error .enoent := of_decide_eq_true htarget
  rw [hmissing] at hfound
  cases hfound

theorem noSpace_mistaken :
    ¬ ∀ (env : Env) (root : OsString) (fuel : Nat) (source : OsString) (w w' : World) (mode : Nat)
      (content : List UInt8) (e : CopyError),
      w.tree.status env.view false source = .ok (.file mode content) →
      clonePath env root fuel source w = some (.err (.copy e), w') →
      NotMistaken env.view root source w'.tree := by
  intro h
  have hends : ((clonePath (noSpace false) (ascii "/r") 9 (ascii "/f")
      (World.start linked ⟨true, true⟩)).any fun out =>
        decide (out.1 = .err (.copy ⟨.copyFileRange, .other 28⟩)) &&
          (decide (out.2.tree.status calm.view true (ascii "/f") = .ok (.file 0o644 [1, 2])) &&
          decide (out.2.tree.status calm.view true (ascii "/r/f") = .ok (.file 0o644 [0, 0])))) =
        true := by
    decide +kernel
  obtain ⟨⟨r, w⟩, hrun, hout⟩ := (Option.any_eq_true _ _).mp hends
  obtain ⟨hr, hout⟩ := Bool.and_eq_true_iff.mp hout
  obtain ⟨hsource, htarget⟩ := Bool.and_eq_true_iff.mp hout
  obtain rfl : r = .err (.copy ⟨.copyFileRange, .other 28⟩) := of_decide_eq_true hr
  have hnot := h _ _ _ _ _ _ 0o644 [1, 2] _ (by decide +kernel) hrun
  have hfile : w.tree.status calm.view true (ascii "/f") = .ok (.file 0o644 [1, 2]) :=
    of_decide_eq_true hsource
  have hdiffers : Differs calm.view (ascii "/f") (targetOf (ascii "/r") (ascii "/f")) w.tree :=
    ⟨_, _, _, _, hfile, of_decide_eq_true htarget, by decide⟩
  obtain ⟨n, hfound⟩ := Tree.status_unfollowed (of_decide_eq_true htarget)
  obtain ⟨w', hagain, htree⟩ : ∃ w', clonePath calm (ascii "/r") 1 (ascii "/f") w =
      some (.ok (), w') ∧ w'.tree = w.tree := clonePath_found rfl hfound
  refine hnot calm 1 w w' rfl rfl (fun _ _ => ⟨fun _ => rfl, fun _ _ _ _ h => h⟩) hagain ?_
  rw [htree]
  exact hdiffers

end Sample

end File
end DracutInstall

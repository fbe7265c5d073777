/-
What `clone_path` does to the permissions of the directories it writes into.

A directory that is read-only is made writable for one branch and set back behind
it.  The link branch can leave the call in between, with the errors of `read_link`
and of its call of itself.  `clonePath_permissions` says that nothing else keeps a
directory from being set back.
-/
import DracutInstall.File.CloneTree

namespace DracutInstall
namespace File

open ByteCodec Rust Process UnixPath FileTree

variable {env : Env} {root source target : OsString} {clone : OsString → Run Unit} {fuel : Nat}

/-! ## Kinds are kept -/

theorem EntryEnds.keepsKinds {n : Node} {w w' : World}
    {r : Outcome CloneError (Except CloneError Unit)}
    (h : EntryEnds env root (clonePath env root fuel) fuel source target n w r w') :
    Tree.KeepsKinds w.tree w'.tree :=
  (keepsKinds_undisturbed w.tree).entryEnds h
    (fun _ _ _ _ _ _ hw hrun => hw.trans (clonePath_keepsKinds hrun))
    (fun _ _ _ _ _ _ hw hcopy => hw.trans (copyFile_keepsKinds hcopy)) (.refl _)

/-! ## Modes of directories -/

/-- The directories of `t` with a mode that has `p` have the same mode in `t'`. -/
def KeepsModes (p : Nat → Prop) (t t' : Tree) : Prop :=
  ∀ loc m, p m → t.node loc = some (.dir m) → t'.node loc = some (.dir m)

section KeepsModes

variable {p : Nat → Prop} {t t' t'' : Tree}

theorem KeepsModes.refl (t : Tree) : KeepsModes p t t := fun _ _ _ h => h

theorem KeepsModes.of_eq (h : t' = t) : KeepsModes p t t' := by
  rw [h]
  exact .refl t

theorem KeepsModes.trans (h : KeepsModes p t t') (h' : KeepsModes p t' t'') :
    KeepsModes p t t'' := fun loc m hp hn => h' loc m hp (h loc m hp hn)

theorem keepsModes_put {loc : Loc} {n : Node} (h : ∀ m, t.node loc ≠ some (.dir m)) :
    KeepsModes p t (t.put loc n) := by
  intro l m _ hl
  have hne : l ≠ loc := by
    rintro rfl
    exact h m hl
  rw [Tree.put_node_ne hne]
  exact hl

theorem chmodAt_node_ne {loc l : Loc} (mode : Nat) (h : l ≠ loc) :
    (t.chmodAt loc mode).node l = t.node l := by
  rw [Tree.chmodAt_node, if_neg h]

theorem chmodAt_node_dir {loc : Loc} {m : Nat} (mode : Nat) (h : t.node loc = some (.dir m)) :
    (t.chmodAt loc mode).node loc = some (.dir mode) := by
  rw [Tree.chmodAt_node, if_pos rfl, h]
  rfl

theorem keepsModes_change {made : List Made} {f : Tree → Except Errno Tree} {w w' : World}
    {r : Except Errno Unit} (h : change env made f w = some (.ok r, w'))
    (hf : ∀ t, f w.tree = .ok t → KeepsModes p w.tree t) : KeepsModes p w.tree w'.tree := by
  obtain ⟨_, hok | ⟨heq, _⟩⟩ := change_ok h
  · exact hf _ hok
  · exact .of_eq heq

theorem keepsModes_createDir {path : OsString} {mode : Nat} {w w' : World}
    {r : Except Errno Unit} (h : createDir env path mode w = some (.ok r, w')) :
    KeepsModes p w.tree w'.tree := by
  refine keepsModes_change h fun t ht => ?_
  obtain ⟨loc, _, hnone, rfl⟩ := Tree.mkdir_ok ht
  exact keepsModes_put fun m hm => by rw [hnone] at hm; cases hm

theorem keepsModes_symlink {text path : OsString} {w w' : World} {r : Except Errno Unit}
    (h : symlink env text path w = some (.ok r, w')) : KeepsModes p w.tree w'.tree := by
  refine keepsModes_change h fun t ht => ?_
  obtain ⟨loc, _, hnone, rfl, _⟩ := Tree.symlink_ok ht
  exact keepsModes_put fun m hm => by rw [hnone] at hm; cases hm

theorem keepsModes_lnR {path : OsString} {w w' : World} {ret : Except CloneError Unit}
    (h : lnR env path target w = some (.ok ret, w')) : KeepsModes p w.tree w'.tree := by
  rw [lnR] at h
  cases htext : convertAbsRel path target with
  | none =>
      rw [htext] at h
      exact .of_eq (congrArg World.tree (pure_eq_some.mp h).2)
  | some text =>
      rw [htext] at h
      obtain ⟨a, w₁, hsym, h⟩ := change_bind h
      rw [(pure_eq_some.mp h).2]
      exact keepsModes_symlink hsym

theorem keepsModes_copyFile {w w' : World} {r : Outcome CloneError (Except CopyError Unit)}
    (h : copyFile env fuel source target w = some (r, w')) : KeepsModes p w.tree w'.tree := by
  rcases copyFile_tree h with heq | ⟨loc, mode, content, _, hfile, hput⟩
  · exact .of_eq heq
  · rw [hput]
    exact keepsModes_put fun m hm => by cases hfile _ hm

theorem isDir_tree {path : OsString} {b : Bool} {w w' : World}
    (h : isDir env path w = some (.ok b, w')) : w'.tree = w.tree := (isDir_ok h).1.tree

theorem isFile_tree {path : OsString} {b : Bool} {w w' : World}
    (h : isFile env path w = some (.ok b, w')) : w'.tree = w.tree := (isFile_ok h).1.tree

/-- A branch keeps the modes that its call of itself keeps. -/
theorem EntryEnds.keepsModes {n : Node} {w w' : World}
    {r : Outcome CloneError (Except CloneError Unit)}
    (h : EntryEnds env root clone fuel source target n w r w')
    (hclone : ∀ text w₁ r w₂, n.isLink = true →
      readLink env source w = some (.ok (.ok text), w₁) →
      clone (linkPath source text) w₁ = some (r, w₂) → KeepsModes p w₁.tree w₂.tree) :
    KeepsModes p w.tree w'.tree := by
  cases h with
  | unread _ hread => exact .of_eq (ask_extends hread)
  | failed hlink hread hrun =>
      exact (KeepsModes.of_eq (ask_extends hread)).trans (hclone _ _ _ _ hlink hread hrun)
  | unwound hlink hread hrun =>
      exact (KeepsModes.of_eq (ask_extends hread)).trans (hclone _ _ _ _ hlink hread hrun)
  | link hlink hread hrun hmade =>
      have hlast := keepsModes_lnR (p := p) hmade
      exact ((KeepsModes.of_eq (ask_extends hread)).trans
        (hclone _ _ _ _ hlink hread hrun)).trans hlast
  | dir _ hdir hmade =>
      have hlast := keepsModes_createDir (p := p) hmade
      exact (KeepsModes.of_eq (isDir_tree hdir)).trans hlast
  | file _ hdir hfile hcopy =>
      have hlast := keepsModes_copyFile (p := p) hcopy
      exact (KeepsModes.of_eq ((isFile_tree hfile).trans (isDir_tree hdir))).trans hlast
  | other _ hdir hfile => exact .of_eq ((isFile_tree hfile).trans (isDir_tree hdir))

end KeepsModes

/-! ## One call -/

def Writable (mode : Nat) : Prop := readonly mode = false

theorem AtEntry.relax {w before after : World} {n : Node} {relaxed : Option (OsString × Nat)}
    (h : AtEntry env root clone source w n before relaxed after) :
    File.relax env (targetOf root source) before = some (.ok relaxed, after) := by
  cases h with
  | intro _ _ _ _ hrelax => exact hrelax

/-- What the parent's call keeps is kept when the call has come to its branch. -/
theorem AtEntry.keepsModes {p : Nat → Prop} {w before after : World} {n : Node}
    {relaxed : Option (OsString × Nat)}
    (h : AtEntry env root clone source w n before relaxed after)
    (hclone : ∀ dir w₁ w₂, Missing env root source w w₁ → parent source = some dir →
      clone dir w₁ = some (.ok (), w₂) → KeepsModes p w₁.tree w₂.tree) :
    KeepsModes p w.tree before.tree := by
  cases h with
  | intro hmissing hparent hrun hstatus _ =>
      exact ((KeepsModes.of_eq hmissing.tree).trans (hclone _ _ _ hmissing hparent hrun)).trans
        (.of_eq (ask_extends hstatus))

/-- What is relaxed and restored is one entry, whatever is made in between. -/
theorem relaxed_around {before after u w' : World} {relaxed : Option (OsString × Nat)}
    {r : Outcome CloneError Unit} (hrelax : relax env target before = some (.ok relaxed, after))
    (hkinds : Tree.KeepsKinds after.tree u.tree) (hrestore : restore env relaxed u = some (r, w')) :
    (after.tree = before.tree ∧ w'.tree = u.tree) ∨
      ∃ loc n, before.tree.node loc = some n ∧ readonly n.mode = true ∧
        after.tree = before.tree.chmodAt loc (n.mode ||| 0o222) ∧
        (w'.tree = u.tree.chmodAt loc n.mode ∨ (w'.tree = u.tree ∧ ∃ e, r = .err e)) := by
  rcases relax_spec hrelax with ⟨hafter, hnone⟩ | ⟨dir, loc, n, hsome, hloc, hn, hreadonly, hafter⟩
  · rcases restore_spec hrestore with ⟨htree, _⟩ | ⟨dir, mode, loc, hsome, _, _, _⟩
    · exact .inl ⟨hafter, htree⟩
    · exact absurd (congrArg Outcome.ok hsome) (hnone _)
  · obtain rfl := Outcome.ok.inj hsome
    refine .inr ⟨loc, n, hn, hreadonly, hafter, ?_⟩
    rcases restore_spec hrestore with ⟨htree, hnone | herr⟩ | ⟨dir', mode, loc', hsome', _, hloc',
      htree⟩
    · cases hnone
    · exact .inr ⟨htree, herr⟩
    · obtain ⟨rfl, rfl⟩ := Prod.mk.inj (Option.some.inj hsome')
      have hkinds' : Tree.KeepsKinds before.tree u.tree := by
        refine Tree.KeepsKinds.trans ?_ hkinds
        rw [hafter]
        exact (Tree.chmodAt_extends _ _ _).keepsKinds
      obtain rfl := ((Tree.lookup_ok hloc).keepsKinds hkinds').unique (Tree.lookup_ok hloc')
      exact .inl htree

theorem keepsModes_relax {w w' : World} {r : Outcome CloneError (Option (OsString × Nat))}
    (h : relax env target w = some (r, w')) : KeepsModes Writable w.tree w'.tree := by
  rcases relax_spec h with ⟨heq, _⟩ | ⟨dir, loc, n, _, _, hn, hreadonly, hafter⟩
  · exact .of_eq heq
  · intro l m hm hl
    rw [hafter, chmodAt_node_ne _ ?_]
    · exact hl
    · rintro rfl
      obtain rfl := Option.some.inj (hn.symm.trans hl)
      exact Bool.false_ne_true (hm.symm.trans hreadonly)

theorem keepsModes_around {before after u w' : World} {relaxed : Option (OsString × Nat)}
    {r : Outcome CloneError Unit} (hrelax : relax env target before = some (.ok relaxed, after))
    (hkinds : Tree.KeepsKinds after.tree u.tree) (hrestore : restore env relaxed u = some (r, w'))
    (hmodes : KeepsModes Writable after.tree u.tree) : KeepsModes Writable before.tree w'.tree := by
  intro l m hm hl
  have hu := hmodes l m hm (keepsModes_relax hrelax l m hm hl)
  rcases relaxed_around hrelax hkinds hrestore with ⟨_, htree⟩ | ⟨loc, n, hn, hreadonly, _, hend⟩
  · rw [htree]
    exact hu
  · rcases hend with htree | ⟨htree, _⟩
    · rw [htree, chmodAt_node_ne _ ?_]
      · exact hu
      · rintro rfl
        obtain rfl := Option.some.inj (hn.symm.trans hl)
        exact Bool.false_ne_true (hm.symm.trans hreadonly)
    · rw [htree]
      exact hu

/-- A directory that is writable keeps its mode in every run. -/
theorem clonePath_writable {w w' : World} {r : Outcome CloneError Unit}
    (h : clonePath env root fuel source w = some (r, w')) :
    KeepsModes Writable w.tree w'.tree := by
  induction fuel generalizing source w w' r with
  | zero => cases h
  | succ fuel ih =>
      have hbefore {n before relaxed after}
          (hentry : AtEntry env root (clonePath env root fuel) source w n before relaxed after) :
          KeepsModes Writable w.tree before.tree :=
        hentry.keepsModes fun _ _ _ _ _ hrun => ih hrun
      have hbranch {n after ret u} (hends : EntryEnds env root (clonePath env root fuel) fuel source
          (targetOf root source) n after ret u) : KeepsModes Writable after.tree u.tree :=
        hends.keepsModes fun _ _ _ _ _ _ hrun => ih hrun
      cases cloneStep_ends h with
      | found hfound =>
          have heq := ask_extends hfound
          exact .of_eq heq
      | top hmissing _ => exact .of_eq hmissing.tree
      | parentFailed hmissing _ hrun => exact (KeepsModes.of_eq hmissing.tree).trans (ih hrun)
      | parentUnwound hmissing _ hrun => exact (KeepsModes.of_eq hmissing.tree).trans (ih hrun)
      | noSource hmissing _ hrun hstatus =>
          exact ((KeepsModes.of_eq hmissing.tree).trans (ih hrun)).trans
            (.of_eq (ask_extends hstatus))
      | notRelaxed hmissing _ hrun hstatus hrelax =>
          exact (((KeepsModes.of_eq hmissing.tree).trans (ih hrun)).trans
            (.of_eq (ask_extends hstatus))).trans (keepsModes_relax hrelax)
      | left hentry hends =>
          exact ((hbefore hentry).trans (keepsModes_relax hentry.relax)).trans (hbranch hends)
      | unwound hentry hends =>
          exact ((hbefore hentry).trans (keepsModes_relax hentry.relax)).trans (hbranch hends)
      | notRestored hentry hends hrestore =>
          exact (hbefore hentry).trans
            (keepsModes_around hentry.relax hends.keepsKinds hrestore (hbranch hends))
      | done hentry hends hrestore =>
          exact (hbefore hentry).trans
            (keepsModes_around hentry.relax hends.keepsKinds hrestore (hbranch hends))

/-! ## Directories that are set back -/

def ReadOnly (mode : Nat) : Prop := readonly mode = true

theorem not_readonly_or (mode : Nat) : readonly (mode ||| 0o222) = false := by
  have hne : (mode ||| 0o222) &&& 0o222 ≠ 0 := by
    rw [Nat.and_or_distrib_right]
    exact fun h => absurd (Nat.or_eq_zero_iff.mp h).2 (by decide)
  exact beq_false_of_ne hne

/-- The call on `s` in `v` makes the directory at `loc` writable, whose mode is `mode`,
and comes to its branch in `after`. -/
inductive MakesWritable (env : Env) (root : OsString) (f : Nat) (s : OsString) (v : World)
    (n : Node) (after : World) (loc : Loc) (mode : Nat) : Prop
  | intro {dir before}
      (hentry : AtEntry env root (clonePath env root f) s v n before (some (dir, mode)) after)
      (hloc : before.tree.lookup env.view true false dir = .ok loc)
      (hdir : before.tree.node loc = some (.dir mode))

/-- The directory is read-only, and writable in the branch. -/
theorem MakesWritable.spec {f mode : Nat} {s : OsString} {v after : World} {n : Node} {loc : Loc}
    (h : MakesWritable env root f s v n after loc mode) :
    ReadOnly mode ∧ after.tree.node loc = some (.dir (mode ||| 0o222)) := by
  cases h with
  | intro hentry hloc hdir =>
      rcases relax_spec hentry.relax with ⟨_, hnone⟩ | ⟨dir', loc', n', hsome, hloc', hn',
        hreadonly, hafter⟩
      · exact absurd rfl (hnone _)
      · obtain ⟨rfl, hmode⟩ := Prod.mk.inj (Option.some.inj (Outcome.ok.inj hsome))
        obtain rfl := Except.ok.inj (hloc.symm.trans hloc')
        obtain rfl := Option.some.inj (hdir.symm.trans hn')
        refine ⟨hreadonly, ?_⟩
        rw [hafter]
        exact chmodAt_node_dir _ hdir

/-- A call that makes no directory writable keeps the modes. -/
theorem keepsModes_or_makesWritable {p : Nat → Prop} {w before after : World} {n : Node}
    {relaxed : Option (OsString × Nat)}
    (h : AtEntry env root (clonePath env root fuel) source w n before relaxed after) :
    KeepsModes p before.tree after.tree ∨
      ∃ loc mode, MakesWritable env root fuel source w n after loc mode := by
  rcases relax_spec h.relax with ⟨heq, _⟩ | ⟨dir, loc, n', hsome, hloc, hn', hreadonly, hafter⟩
  · exact .inl (.of_eq heq)
  · obtain rfl := Outcome.ok.inj hsome
    cases n' with
    | dir mode => exact .inr ⟨loc, mode, .intro h hloc hn'⟩
    | file mode content =>
        left
        intro l m _ hl
        rw [hafter, chmodAt_node_ne _ (fun heq => by rw [heq, hn'] at hl; cases hl)]
        exact hl
    | link text =>
        left
        intro l m _ hl
        rw [hafter, chmodAt_node_ne _ (fun heq => by rw [heq, hn'] at hl; cases hl)]
        exact hl
    | special mode =>
        left
        intro l m _ hl
        rw [hafter, chmodAt_node_ne _ (fun heq => by rw [heq, hn'] at hl; cases hl)]
        exact hl

/-- A link for which a directory was made writable is read, and what it leads to is
cloned: neither `?` of the link branch is taken. -/
def LinkFollowed (env : Env) (root : OsString) (f : Nat) (s : OsString) (v : World) : Prop :=
  ∀ n after loc mode, MakesWritable env root f s v n after loc mode → n.isLink = true →
    ∃ text w₁ w₂, readLink env s after = some (.ok (.ok text), w₁) ∧
      clonePath env root f (linkPath s text) w₁ = some (.ok (), w₂)

/-- `set_permissions` succeeds behind the branch. -/
def RestoreSucceeds (env : Env) (root : OsString) (f : Nat) (s : OsString) (v : World) : Prop :=
  ∀ n before relaxed after ret u,
    AtEntry env root (clonePath env root f) s v n before relaxed after →
    EntryEnds env root (clonePath env root f) f s (targetOf root s) n after (.ok ret) u →
    ∃ u', restore env relaxed u = some (.ok (), u')

/-- A directory the call makes writable has its mode in `w'`. -/
def SetBackIn (env : Env) (root : OsString) (w' : World) (f : Nat) (s : OsString) (v : World) :
    Prop :=
  ∀ n after loc mode, MakesWritable env root f s v n after loc mode →
    w'.tree.node loc = some (.dir mode)

theorem SetBackIn.mono {f : Nat} {s : OsString} {v u w' : World}
    (h : SetBackIn env root u f s v) (hmodes : KeepsModes ReadOnly u.tree w'.tree) :
    SetBackIn env root w' f s v :=
  fun n after loc mode hwrites =>
    hmodes loc mode hwrites.spec.1 (h n after loc mode hwrites)

/-- A branch that leaves the call is the link branch. -/
theorem LinkFollowed.stays {e : CloneError} {w after w' : World} {n : Node} {loc : Loc}
    {mode : Nat} (h : LinkFollowed env root fuel source w)
    (hwrites : MakesWritable env root fuel source w n after loc mode)
    (hends : EntryEnds env root (clonePath env root fuel) fuel source (targetOf root source) n
      after (.err e) w') : False := by
  cases hends with
  | unread hlink hread =>
      obtain ⟨text, w₁, w₂, hread', _⟩ := h n after loc mode hwrites hlink
      cases (ends_unique hread hread').1
  | failed hlink hread hclone =>
      obtain ⟨text, w₁, w₂, hread', hclone'⟩ := h n after loc mode hwrites hlink
      obtain ⟨htext, rfl⟩ := ends_unique hread hread'
      obtain rfl := Except.ok.inj (Outcome.ok.inj htext)
      cases (ends_unique hclone hclone').1

theorem EntryEnds.writable {n : Node} {w w' : World}
    {r : Outcome CloneError (Except CloneError Unit)}
    (h : EntryEnds env root (clonePath env root fuel) fuel source target n w r w') :
    KeepsModes Writable w.tree w'.tree :=
  h.keepsModes fun _ _ _ _ _ _ hrun => clonePath_writable hrun

/-- What is set back was writable before. -/
theorem keepsReadOnly_restore {before after u w' : World} {relaxed : Option (OsString × Nat)}
    {r : Outcome CloneError Unit} (hrelax : relax env target before = some (.ok relaxed, after))
    (hkinds : Tree.KeepsKinds after.tree u.tree) (hwritable : KeepsModes Writable after.tree u.tree)
    (hrestore : restore env relaxed u = some (r, w')) : KeepsModes ReadOnly u.tree w'.tree := by
  rcases relaxed_around hrelax hkinds hrestore with ⟨_, htree⟩ | ⟨loc, n, hn, _, hafter, hend⟩
  · exact .of_eq htree
  · rcases hend with htree | ⟨htree, _⟩
    · intro l m hm hl
      have hne : l ≠ loc := by
        rintro rfl
        have hnode : after.tree.node l = some (n.setMode (n.mode ||| 0o222)) := by
          rw [hafter, Tree.chmodAt_node, if_pos rfl, hn]
          rfl
        obtain ⟨n', hn', hkind⟩ := hkinds l _ hnode
        obtain rfl := Option.some.inj (hl.symm.trans hn')
        cases n with
        | dir m' =>
            have hl' := hwritable l _ (not_readonly_or m') hnode
            cases hl.symm.trans hl'
            exact Bool.false_ne_true ((not_readonly_or m').symm.trans hm)
        | file m' content => cases hkind.1
        | link text => cases hkind.1
        | special m' => cases hkind.1
      rw [htree, chmodAt_node_ne _ hne]
      exact hl
    · exact .of_eq htree

theorem keepsReadOnly_around {before after u w' : World} {relaxed : Option (OsString × Nat)}
    (hrelax : relax env target before = some (.ok relaxed, after))
    (hkinds : Tree.KeepsKinds after.tree u.tree) (hwritable : KeepsModes Writable after.tree u.tree)
    (hreadonly : KeepsModes ReadOnly after.tree u.tree)
    (hrestore : restore env relaxed u = some (.ok (), w')) :
    KeepsModes ReadOnly before.tree w'.tree := by
  intro l m hm hl
  rcases relaxed_around hrelax hkinds hrestore with ⟨hafter, htree⟩ | ⟨loc, n, hn, _, hafter, hend⟩
  · rw [htree]
    exact hreadonly l m hm (by rw [hafter]; exact hl)
  · rcases hend with htree | ⟨_, e, he⟩
    swap
    · cases he
    by_cases heq : l = loc
    · subst heq
      obtain rfl := Option.some.inj (hn.symm.trans hl)
      have hwrite : after.tree.node l = some (.dir (m ||| 0o222)) := by
        rw [hafter]
        exact chmodAt_node_dir _ hl
      rw [htree]
      exact chmodAt_node_dir _ (hwritable l _ (not_readonly_or m) hwrite)
    · have hsame : after.tree.node l = some (.dir m) := by
        rw [hafter, chmodAt_node_ne _ heq]
        exact hl
      rw [htree, chmodAt_node_ne _ heq]
      exact hreadonly l m hm hsame

/-- The directory a call makes writable is set back behind its branch. -/
theorem MakesWritable.setBack {w after u w' : World} {n : Node} {loc : Loc} {mode : Nat}
    {before : World} {relaxed : Option (OsString × Nat)}
    (h : MakesWritable env root fuel source w n after loc mode)
    (hentry : AtEntry env root (clonePath env root fuel) source w n before relaxed after)
    (hends : KeepsModes Writable after.tree u.tree) (hkinds : Tree.KeepsKinds after.tree u.tree)
    (hrestore : restore env relaxed u = some (.ok (), w')) :
    w'.tree.node loc = some (.dir mode) := by
  obtain ⟨_, hwrite⟩ := h.spec
  have hu := hends loc _ (not_readonly_or mode) hwrite
  cases h with
  | intro hentry' hloc hdir =>
      obtain ⟨-, rfl, rfl, -⟩ := hentry.unique hentry'
      rcases relaxed_around hentry.relax hkinds hrestore with ⟨hafter, _⟩ | ⟨loc', n', hn', _,
        hafter, hend⟩
      · rw [hafter, hdir] at hwrite
        obtain heq := Node.dir.inj (Option.some.inj hwrite)
        have hreadonly := (MakesWritable.intro hentry hloc hdir).spec.1
        rw [ReadOnly, heq] at hreadonly
        exact absurd ((not_readonly_or mode).symm.trans hreadonly) Bool.false_ne_true
      · rcases hend with htree | ⟨_, e, he⟩
        · have heq : loc = loc' := by
            by_contra hne
            rw [hafter, chmodAt_node_ne _ hne, hdir] at hwrite
            have hmode := Node.dir.inj (Option.some.inj hwrite)
            have hreadonly := (MakesWritable.intro hentry hloc hdir).spec.1
            rw [ReadOnly, hmode] at hreadonly
            exact absurd ((not_readonly_or mode).symm.trans hreadonly) Bool.false_ne_true
          subst heq
          obtain rfl := Option.some.inj (hdir.symm.trans hn')
          rw [htree]
          exact chmodAt_node_dir _ hu
        · cases he

section Run

variable {w w' : World} {r : Outcome CloneError Unit}

/-- The branch and what comes behind it. -/
theorem AtEntry.keepsReadOnly {n : Node} {before after : World}
    {relaxed : Option (OsString × Nat)}
    (hentry : AtEntry env root (clonePath env root fuel) source w n before relaxed after)
    (hfollowed : LinkFollowed env root fuel source w)
    (hrestores : RestoreSucceeds env root fuel source w)
    (hstep : StepEnds env root (clonePath env root fuel) fuel source w r w') (hr : r ≠ .panic)
    (hbranch : ∀ ret u, EntryEnds env root (clonePath env root fuel) fuel source
      (targetOf root source) n after ret u → ret ≠ .panic → KeepsModes ReadOnly after.tree u.tree) :
    KeepsModes ReadOnly before.tree w'.tree := by
  rcases hentry.ends hstep with ⟨e, _, hends⟩ | ⟨hpanic, _⟩ | ⟨ret, u, hends, hend⟩
  · rcases keepsModes_or_makesWritable hentry with hkeeps | ⟨loc, mode, hwrites⟩
    · exact hkeeps.trans (hbranch _ _ hends fun h => by cases h)
    · exact (hfollowed.stays hwrites hends).elim
  · exact absurd hpanic hr
  · obtain ⟨u', hrestore⟩ := hrestores n before relaxed after ret u hentry hends
    rcases hend with ⟨e, _, hfail⟩ | ⟨_, hdone⟩
    · cases (ends_unique hrestore hfail).1
    · exact keepsReadOnly_around hentry.relax hends.keepsKinds hends.writable
        (hbranch _ _ hends fun h => by cases h) hdone

/-- What a run keeps and sets back if it follows the links it opens a directory for. -/
theorem clonePath_keepsReadOnly
    (hrestores : EachCall env root (RestoreSucceeds env root) fuel source w)
    (hfollowed : EachCall env root (LinkFollowed env root) fuel source w)
    (hrun : clonePath env root fuel source w = some (r, w')) (hr : r ≠ .panic) :
    KeepsModes ReadOnly w.tree w'.tree ∧
      EachCall env root (SetBackIn env root w') fuel source w := by
  induction fuel generalizing source w w' r with
  | zero => cases hrun
  | succ fuel ih =>
      have hstep : StepEnds env root (clonePath env root fuel) fuel source w r w' :=
        cloneStep_ends hrun
      have hself := hfollowed fuel source w (.self _ _ _)
      have hrestoresSelf := hrestores fuel source w (.self _ _ _)
      have hbehind {n before relaxed after}
          (hentry : AtEntry env root (clonePath env root fuel) source w n before relaxed after) :
          KeepsModes ReadOnly before.tree w'.tree := by
        refine hentry.keepsReadOnly hself hrestoresSelf hstep hr fun ret u hends hret => ?_
        refine hends.keepsModes fun text w₁ r₁ w₂ hlink hread hclone => ?_
        refine (ih (hrestores.link hentry hlink hread) (hfollowed.link hentry hlink hread) hclone
          ?_).1
        rintro rfl
        rcases hends.followed hlink hread with ⟨_, _, _, hclone', _⟩ | ⟨e, _, hclone'⟩ | ⟨hpanic, _⟩
        · cases (ends_unique hclone hclone').1
        · cases (ends_unique hclone hclone').1
        · exact hret hpanic
      have hparents {dir w₁} (hmissing : Missing env root source w w₁)
          (hparent : parent source = some dir) : KeepsModes ReadOnly w.tree w'.tree ∧
            EachCall env root (SetBackIn env root w') fuel dir w₁ := by
        have hparentRun {r u} (hclone : clonePath env root fuel dir w₁ = some (r, u)) :=
          ih (hrestores.parent hmissing hparent) (hfollowed.parent hmissing hparent) hclone
        have hsame : KeepsModes ReadOnly w.tree w₁.tree := .of_eq hmissing.tree
        rcases hmissing.ends hparent hstep with ⟨u, hclone⟩ | hclone
        · obtain ⟨hkeeps, hback⟩ := hparentRun hclone fun h => by cases h
          have hrest : KeepsModes ReadOnly u.tree w'.tree := by
            rcases hmissing.behind hparent hclone hstep with ⟨e, hstatus⟩ | ⟨n, before, hstatus,
              ⟨e, hrelax⟩ | ⟨relaxed, after, hentry⟩⟩
            · have heq := ask_extends hstatus
              exact .of_eq heq
            · have heq := ask_extends hstatus
              rcases relax_spec hrelax with ⟨heq', _⟩ | ⟨_, _, _, hok, _⟩
              · exact .of_eq (heq'.trans heq)
              · cases hok
            · have heq := ask_extends hstatus
              exact (KeepsModes.of_eq heq).trans (hbehind hentry)
          exact ⟨(hsame.trans hkeeps).trans hrest,
            fun f s v hnested => (hback f s v hnested).mono hrest⟩
        · obtain ⟨hkeeps, hback⟩ := hparentRun hclone hr
          exact ⟨hsame.trans hkeeps, hback⟩
      refine ⟨?_, .of ?_ (fun dir w₁ hmissing hparent => (hparents hmissing hparent).2) ?_⟩
      · rcases hstep.start with ⟨n, hfound, _⟩ | ⟨hmissing, _, _⟩ | ⟨dir, w₁, hmissing, hparent⟩
        · have heq := ask_extends hfound
          exact .of_eq heq
        · exact .of_eq hmissing.tree
        · exact (hparents hmissing hparent).1
      · intro n after loc mode hwrites
        have hwrites' := hwrites
        cases hwrites with
        | intro hentry _ _ =>
            rcases hentry.ends hstep with ⟨e, _, hends⟩ | ⟨hpanic, _⟩ | ⟨ret, u, hends, hend⟩
            · exact (hself.stays hwrites' hends).elim
            · exact absurd hpanic hr
            · obtain ⟨u', hrestore⟩ := hrestoresSelf _ _ _ _ _ _ hentry hends
              rcases hend with ⟨e, _, hfail⟩ | ⟨_, hdone⟩
              · cases (ends_unique hrestore hfail).1
              · exact hwrites'.setBack hentry hends.writable hends.keepsKinds hdone
      · intro n before relaxed after text w₁ hentry hlink hread
        have hlinkRun {r u} (hclone : clonePath env root fuel (linkPath source text) w₁ =
            some (r, u)) :=
          ih (hrestores.link hentry hlink hread) (hfollowed.link hentry hlink hread) hclone
        rcases hentry.ends hstep with ⟨e, he, hends⟩ | ⟨hpanic, _⟩ | ⟨ret, u, hends, hend⟩
        · rcases hends.followed hlink hread with ⟨_, _, hno, _⟩ | ⟨e', _, hclone⟩ | ⟨hno, _⟩
          · cases hno
          · exact (hlinkRun hclone fun h => by cases h).2
          · cases hno
        · exact absurd hpanic hr
        · rcases hends.followed hlink hread with ⟨ret', u', hret, hclone, hmade⟩ | ⟨_, hno, _⟩ |
            ⟨hno, _⟩
          · have hlast := keepsModes_lnR (p := ReadOnly) hmade
            have hrest : KeepsModes ReadOnly u.tree w'.tree := by
              rcases hend with ⟨e, _, hrestore⟩ | ⟨_, hrestore⟩
              · exact keepsReadOnly_restore hentry.relax hends.keepsKinds hends.writable hrestore
              · exact keepsReadOnly_restore hentry.relax hends.keepsKinds hends.writable hrestore
            intro f s v hnested
            exact ((hlinkRun hclone fun h => by cases h).2 f s v hnested).mono (hlast.trans hrest)
          · cases hno
          · cases hno

/-- A call on a link leaves it through a `?`, or follows it. -/
theorem AtEntry.follows {n : Node} {before after : World} {relaxed : Option (OsString × Nat)}
    (hentry : AtEntry env root (clonePath env root fuel) source w n before relaxed after)
    (hlink : n.isLink = true) (hrun : clonePath env root (fuel + 1) source w = some (r, w'))
    (hr : r ≠ .panic) :
    (∃ e, r = .err e ∧ EntryEnds env root (clonePath env root fuel) fuel source
        (targetOf root source) n after (.err e) w') ∨
      ∃ text w₁ w₂, readLink env source after = some (.ok (.ok text), w₁) ∧
        clonePath env root fuel (linkPath source text) w₁ = some (.ok (), w₂) := by
  rcases hentry.ends (cloneStep_ends hrun) with ⟨e, he, hends⟩ | ⟨hpanic, _⟩ | ⟨ret, u, hends, _⟩
  · exact .inl ⟨e, he, hends⟩
  · exact absurd hpanic hr
  · cases hends with
    | link _ hread hclone _ => exact .inr ⟨_, _, _, hread, hclone⟩
    | dir hother _ _ => cases hlink.symm.trans hother
    | file hother _ _ _ => cases hlink.symm.trans hother

theorem linkFollowed_of_ok (hrun : clonePath env root fuel source w = some (.ok (), w')) :
    EachCall env root (LinkFollowed env root) fuel source w := by
  intro f s v hnested n after loc mode hwrites hlink
  have hok : ∃ u, clonePath env root (f + 1) s v = some (.ok (), u) := by
    rcases hnested.ends hrun with hok | hok
    · exact hok
    · exact ⟨w', hok⟩
  obtain ⟨u, hcall⟩ := hok
  cases hwrites with
  | intro hentry _ _ =>
      rcases hentry.follows hlink hcall (fun h => by cases h) with ⟨e, he, _⟩ | hfollowed
      · cases he
      · exact hfollowed

theorem linkFollowed_of_setBack (hrun : clonePath env root fuel source w = some (r, w'))
    (hr : r ≠ .panic) (hback : EachCall env root (SetBackIn env root w') fuel source w) :
    EachCall env root (LinkFollowed env root) fuel source w := by
  intro f s v hnested n after loc mode hwrites hlink
  rcases hnested.ends hrun with ⟨u, hok⟩ | hcall
  · exact linkFollowed_of_ok hok f s v (.self _ _ _) n after loc mode hwrites hlink
  obtain ⟨hreadonly, hwrite⟩ := hwrites.spec
  have hmode := hback f s v hnested n after loc mode hwrites
  cases hwrites with
  | intro hentry _ _ =>
      rcases hentry.follows hlink hcall hr with ⟨e, _, hends⟩ | hfollowed
      · -- the branch is left: the directory is writable in `w'`
        have hleft := hends.writable loc _ (not_readonly_or mode) hwrite
        have heq := Node.dir.inj (Option.some.inj (hmode.symm.trans hleft))
        rw [ReadOnly, heq] at hreadonly
        exact absurd ((not_readonly_or mode).symm.trans hreadonly) Bool.false_ne_true
      · exact hfollowed

/-- When `clone_path` returns and no `set_permissions` that sets back fails, each
directory that was made writable has its mode again if and only if none was made
writable for a link whose branch is left by a `?`. -/
theorem clonePath_permissions
    (hrestores : EachCall env root (RestoreSucceeds env root) fuel source w)
    (hrun : clonePath env root fuel source w = some (r, w')) (hr : r ≠ .panic) :
    EachCall env root (SetBackIn env root w') fuel source w ↔
      EachCall env root (LinkFollowed env root) fuel source w :=
  ⟨linkFollowed_of_setBack hrun hr,
    fun hfollowed => (clonePath_keepsReadOnly hrestores hfollowed hrun hr).2⟩

/-- Where no system call fails for a reason of its own, what was relaxed is restored. -/
theorem restoreSucceeds_of_faultless (hfault : ∀ k, env.fault k = none) :
    EachCall env root (RestoreSucceeds env root) fuel source w := by
  intro f s v _ n before relaxed after ret u hentry hends
  cases relaxed with
  | none => exact ⟨u, rfl⟩
  | some perms =>
      rcases relax_spec hentry.relax with ⟨_, hnone⟩ | ⟨dir, loc, n', hsome, hloc, _, _, hafter⟩
      · exact absurd rfl (hnone _)
      · obtain rfl := Option.some.inj (Outcome.ok.inj hsome)
        have hkinds : Tree.KeepsKinds before.tree u.tree := by
          refine Tree.KeepsKinds.trans ?_ hends.keepsKinds
          rw [hafter]
          exact (Tree.chmodAt_extends _ _ _).keepsKinds
        have hchmod : u.tree.chmod env.view dir n'.mode = .ok (u.tree.chmodAt loc n'.mode) := by
          rw [Tree.chmod, Tree.lookup_keepsKinds hkinds hloc]
        obtain ⟨w', hset, _⟩ := change_answers (f := (Tree.chmod · env.view dir n'.mode))
          (hfault u.calls) [] hchmod
        exact ⟨w', bind_eq_some.mpr (.inl ⟨_, _, hset, rfl⟩)⟩

end Run

namespace Sample

/-- A directory that is read-only below the destination already, with a file and a link
that leads nowhere beside it. -/
def sealed : Tree := .ofEntries [
  ([ascii "r"], .dir 0o755), ([ascii "r", ascii "d"], .dir 0o555), ([ascii "d"], .dir 0o555),
  ([ascii "d", ascii "f"], .file 0o644 [1, 2]), ([ascii "d", ascii "l"], .link (ascii "gone"))]

theorem sealed_setBack :
    ∃ w, clonePath calm (ascii "/r") 9 (ascii "/d/f") (World.start sealed ⟨true, true⟩) =
        some (.ok (), w) ∧
      EachCall calm (ascii "/r") (SetBackIn calm (ascii "/r") w) 9 (ascii "/d/f")
        (World.start sealed ⟨true, true⟩) := by
  have hends : ((clonePath calm (ascii "/r") 9 (ascii "/d/f")
      (World.start sealed ⟨true, true⟩)).any fun out => decide (out.1 = .ok ())) = true := by
    decide +kernel
  obtain ⟨⟨r, w⟩, hrun, hr⟩ := (Option.any_eq_true _ _).mp hends
  obtain rfl : r = .ok () := of_decide_eq_true hr
  exact ⟨w, hrun, (clonePath_permissions (restoreSucceeds_of_faultless fun _ => rfl) hrun
    fun h => by cases h).mpr (linkFollowed_of_ok hrun)⟩

theorem sealed_leftWritable :
    ¬ ∀ (env : Env) (root : OsString) (fuel : Nat) (source : OsString) (w w' : World)
      (r : Outcome CloneError Unit), EachCall env root (RestoreSucceeds env root) fuel source w →
      clonePath env root fuel source w = some (r, w') → r ≠ .panic →
      EachCall env root (SetBackIn env root w') fuel source w := by
  intro h
  have hends : ((clonePath calm (ascii "/r") 9 (ascii "/d/l")
      (World.start sealed ⟨true, true⟩)).any fun out =>
        decide (out.1 = .err (.sourceMetadata .enoent)) &&
          decide (out.2.tree.node [ascii "r", ascii "d"] = some (.dir 0o777))) = true := by
    decide +kernel
  obtain ⟨⟨r, w⟩, hrun, hout⟩ := (Option.any_eq_true _ _).mp hends
  obtain ⟨hr, hmode⟩ := Bool.and_eq_true_iff.mp hout
  obtain rfl : r = .err (.sourceMetadata .enoent) := of_decide_eq_true hr
  have hrestores : EachCall calm (ascii "/r") (RestoreSucceeds calm (ascii "/r")) 9
      (ascii "/d/l") (World.start sealed ⟨true, true⟩) :=
    restoreSucceeds_of_faultless fun _ => rfl
  have hback := h _ _ _ _ _ _ _ hrestores hrun fun heq => by cases heq
  have hfollowed := linkFollowed_of_setBack hrun (fun heq => by cases heq) hback
  have hkeeps := (clonePath_keepsReadOnly hrestores hfollowed hrun fun heq => by cases heq).1
  have hold : sealed.node [ascii "r", ascii "d"] = some (.dir 0o555) := by decide +kernel
  have hnew := hkeeps _ 0o555 (show readonly 0o555 = true by decide) hold
  cases (of_decide_eq_true hmode).symm.trans hnew

end Sample

end File
end DracutInstall

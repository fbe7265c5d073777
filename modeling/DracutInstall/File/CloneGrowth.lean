/-
What a run of `clone_path` adds to a tree.

Between the call on its parent and what it makes a call is `Pending`.  As long as
nothing else takes its place by then (`Settled`), what it makes is `MadeOf` the
source, in the place the target names.  `Carrying.clonePath` takes a property of
the tree through all that a run makes.
-/
import DracutInstall.File.CloneSucceeds
import DracutInstall.Lib.Naming

namespace DracutInstall
namespace File

open ByteCodec Rust Process UnixPath FileTree

variable {env : Env} {root source target s dir text : OsString} {fuel f : Nat} {S t t' : Tree}
  {v : Tree.View} {n : Node} {loc : Loc}

/-! ## Targets -/

/-- The target of a path without components is the destination. -/
theorem taken_root (hseat : t.status v true root = .ok n) (hpushed : Pushed source)
    (hbody : body source = []) : Tree.Taken v t (targetOf root source) := by
  refine (Tree.taken_of_status hseat).congr (hpushed.start v) ?_
  rw [hpushed.body, hbody, List.append_nil]

/-- The target of a path with two separators at its front is the path itself. -/
theorem status_targetOf_double (hsource : hasRoot source = true)
    (hdouble : hasRoot (source.drop 1) = true) (follow : Bool) :
    t.status v follow (targetOf root source) = t.status v follow source := by
  obtain ⟨rest, rfl⟩ := exists_of_hasRoot hsource
  have hrest : hasRoot rest = true := hdouble
  have hne : rest ≠ [] := by
    rintro rfl
    cases hrest
  have htarget : targetOf root (sep :: rest) = rest := by
    rw [targetOf, if_pos hsource]
    exact if_pos hrest
  rw [htarget, Tree.status, Tree.status, Tree.lookup, Tree.lookup, if_neg hne,
    if_neg (List.cons_ne_nil _ _), Tree.start, Tree.start, if_pos hrest, if_pos hsource,
    steps_sep_cons]

theorem taken_parent (hpushed : Pushed source) (hparent : parent source = some dir)
    (h : Tree.Taken v t (targetOf root source)) : Tree.Taken v t (targetOf root dir) := by
  have hdir := hpushed.parent hparent
  have hstart : Tree.start v (targetOf root source) = Tree.start v (targetOf root dir) := by
    rw [hpushed.start, hdir.start]
  rcases body_parent hparent with ⟨hbody, rfl⟩ | ⟨c, hbody⟩
  · refine h.congr hstart.symm ?_
    rw [hpushed.body, hdir.body, hbody, body_nil]
  · refine h.parent (c := c) ?_ hstart
    rw [hpushed.body, hdir.body, hbody, List.append_assoc]

theorem Missing.status {w w₁ : World} (hfault : env.fault w.calls = none)
    (h : Missing env root source w w₁) :
    ∃ e, w.tree.status env.view false (targetOf root source) = .error e := by
  obtain ⟨e, hask⟩ := h
  obtain ⟨w', hanswer, _⟩ := ask_answers (w := w.line (.clonePath source (targetOf root source)))
    hfault (Tree.status · env.view false (targetOf root source))
  exact ⟨e, Outcome.ok.inj (ends_unique hanswer hask).1⟩

/-- Only the target of a path without two separators at its front can be missing. -/
theorem pushed_of_missing {w w₁ : World} (hfault : env.fault w.calls = none)
    (hleads : LeadsIn env.view w.tree env.view.limit source) (h : Missing env root source w w₁) :
    Pushed source := by
  intro hroot
  have hne : source ≠ [] := by
    rintro rfl
    cases hroot
  obtain ⟨n, hexists⟩ := hleads.status hne
  obtain ⟨n', hfound⟩ := Tree.status_unfollowed hexists
  obtain ⟨e, hstatus⟩ := h.status hfault
  by_contra hdouble
  rw [status_targetOf_double hroot (Bool.not_eq_false _ ▸ hdouble), hfound] at hstatus
  cases hstatus

/-! ## The place a target names -/

/-- What is no directory is asked for by components alone. -/
theorem endsBlank_of_status {follow : Bool} (h : t.status v follow s = .ok n)
    (hdir : n.isDir = false) : endsBlank s = false := by
  obtain ⟨loc, hwalk, hn⟩ := Tree.status_ok h
  cases hblank : endsBlank s with
  | false => rfl
  | true =>
      rw [steps, hblank, if_pos rfl] at hwalk
      have hlast := hwalk.curDir_last.2
      rw [Tree.isDir, hn] at hlast
      cases hdir.symm.trans hlast

theorem ne_nil_of_names (h : Tree.Names v t target loc) : target ≠ [] := by
  intro hnil
  cases h with
  | intro hbody _ _ _ =>
      rw [hnil, body_nil] at hbody
      simp at hbody

theorem lookup_body (follow missing : Bool) (hpushed : Pushed s) (hblank : endsBlank s = false)
    (hnames : Tree.Names v t (targetOf root s) loc) :
    t.lookup v follow missing (targetOf root s) =
      t.walk follow missing v.limit (Tree.start v (targetOf root s)) (body (targetOf root s)) := by
  have hsteps : steps (targetOf root s) = body (targetOf root s) := by
    rw [hpushed.steps, steps, hblank, if_neg Bool.false_ne_true, List.append_nil, hpushed.body]
  rw [Tree.lookup, if_neg (ne_nil_of_names hnames), hsteps]

theorem lookup_new (follow : Bool) (hpushed : Pushed s) (hblank : endsBlank s = false)
    (hnames : Tree.Names v t (targetOf root s) loc) (hnone : t.node loc = none) :
    t.lookup v follow true (targetOf root s) = .ok loc :=
  (lookup_body follow true hpushed hblank hnames).trans (hnames.walk_new hnone)

/-- `mkdir` can make the place that its path names, if that ends in the name, or in
separators behind it, and nothing is there. -/
theorem canMakeDir_iff (hnames : Tree.Names v t target loc) :
    CanMakeDir v t target ↔ endsBlank (trimSeps target) = false ∧ t.node loc = none := by
  constructor
  · rintro ⟨_, loc', hwalk, hnone⟩
    have hsteps := Tree.steps_of_new hwalk hnone
    rw [hsteps, body_trimSeps] at hwalk
    obtain rfl := hnames.eq_of_walks (Tree.walk_sound hwalk)
    refine ⟨?_, hnone⟩
    rw [steps] at hsteps
    by_contra hblank
    rw [if_pos (by simpa using hblank)] at hsteps
    simp at hsteps
  · rintro ⟨hblank, hnone⟩
    refine ⟨ne_nil_of_names hnames, loc, ?_, hnone⟩
    rw [steps, hblank, if_neg Bool.false_ne_true, List.append_nil, body_trimSeps]
    exact hnames.walk_new hnone

/-! ## What is made of a source -/

/-- A copy of the content does not stop at a hole at its end. -/
def Whole (env : Env) (content : List UInt8) : Prop :=
  (∃ p < (env.layout content).size, (env.layout content).data p = true) →
    ¬ (env.layout content).HoleAtEnd

/-- An entry like that of the source, but for a mode; of a link the text is relative, and
what it leads to is there. -/
inductive MadeOf (env : Env) (root : OsString) (S t : Tree) (s : OsString) : Node → Prop
  | dir {m m'} (hstatus : S.status env.view false s = .ok (.dir m)) : MadeOf env root S t s (.dir m')
  | file {m m' content} (hstatus : S.status env.view false s = .ok (.file m content))
      (hwhole : Whole env content) : MadeOf env root S t s (.file m' content)
  | link {text rel} (hstatus : S.status env.view false s = .ok (.link text))
      (hrel : convertAbsRel (targetOf root (linkPath s text)) (targetOf root s) = some rel)
      (hne : rel ≠ []) (htaken : Tree.Taken env.view t (targetOf root (linkPath s text))) :
      MadeOf env root S t s (.link rel)

theorem status_of_extends (hext : Tree.Extends S t) {m : Node}
    (hS : S.status v false s = .ok m) (ht : t.status v false s = .ok n) : m.Like n := by
  obtain ⟨n', hn', hlike⟩ := Tree.status_mono hext hS
  obtain rfl := Except.ok.inj (hn'.symm.trans ht)
  exact hlike

theorem MadeOf.of_extends (hext : Tree.Extends S t) {m : Node}
    (hS : S.status env.view false s = .ok m) (h : MadeOf env root t t' s n) :
    MadeOf env root S t' s n := by
  cases h with
  | dir hstatus =>
      have hlike := status_of_extends hext hS hstatus
      cases m with
      | dir m => exact .dir hS
      | file m content => cases hlike
      | link text => cases hlike
      | special m => cases hlike
  | file hstatus hwhole =>
      have hlike := status_of_extends hext hS hstatus
      cases m with
      | file m content =>
          obtain ⟨_, rfl⟩ := Node.file.inj hlike
          exact .file hS hwhole
      | dir m => cases hlike
      | link text => cases hlike
      | special m => cases hlike
  | link hstatus hrel hne htaken =>
      have hlike := status_of_extends hext hS hstatus
      cases m with
      | link text =>
          obtain rfl := Node.link.inj hlike
          exact .link hS hrel hne htaken
      | dir m => cases hlike
      | file m content => cases hlike
      | special m => cases hlike

theorem MadeOf.keepsKinds {t'' : Tree} (hkeeps : Tree.KeepsKinds t' t'')
    (h : MadeOf env root S t' s n) : MadeOf env root S t'' s n := by
  cases h with
  | dir hstatus => exact .dir hstatus
  | file hstatus hwhole => exact .file hstatus hwhole
  | link hstatus hrel hne htaken => exact .link hstatus hrel hne (htaken.keepsKinds hkeeps)

/-- `n` is put in the place that the target of `s` names. -/
structure Created (env : Env) (root s : OsString) (t t' : Tree) (loc : Loc) (n : Node) : Prop where
  names : Tree.Names env.view t (targetOf root s) loc
  free : t.node loc = none
  made : MadeOf env root t t s n
  put : t' = t.put loc n

/-- The target leads to another file than the source. -/
theorem kernelAt_source {u : World} {m : Nat} {content : List UInt8}
    (hfrom : u.tree.status env.view true source = .ok (.file m content))
    (hopen : openTo env u.tree target = .ok loc)
    (hother : u.tree.lookup env.view true false source ≠ .ok loc) :
    (kernelAt env source target u).source = env.layout content := by
  have hsame : decide (u.tree.lookup env.view true false source =
      u.tree.lookup env.view true true target) = false := by
    rw [(openTo_ok hopen).1]
    exact decide_eq_false hother
  rw [kernelAt, copyKernel]
  dsimp only
  rw [hfrom, hsame]
  rfl

theorem lookup_ne_of_none {follow : Bool} (h : t.status v follow source = .ok n)
    (hnone : t.node loc = none) : t.lookup v follow false source ≠ .ok loc := by
  obtain ⟨l, hl, hn⟩ := Tree.status_lookup h
  intro heq
  obtain rfl := Except.ok.inj (hl.symm.trans heq)
  cases hn.symm.trans hnone

theorem body_of_new {follow missing : Bool} (h : t.lookup v follow missing target = .ok loc)
    (hn : t.node loc = none) :
    t.walk follow missing v.limit (Tree.start v target) (body target) = .ok loc ∧
      body target ≠ [] := by
  rw [Tree.lookup] at h
  split at h
  · cases h
  · have hsteps := Tree.steps_of_new h hn
    rw [hsteps] at h
    exact ⟨h, hsteps ▸ steps_ne_nil target⟩

theorem createDir_created {u : World} {m mode : Nat} {t' : Tree}
    (hstatus : u.tree.status env.view false s = .ok (.dir m))
    (hfree : ¬ Tree.Taken env.view u.tree (targetOf root s))
    (hmade : u.tree.mkdir env.view (targetOf root s) mode = .ok t') :
    ∃ loc n, Created env root s u.tree t' loc n := by
  rw [Tree.mkdir] at hmade
  split at hmade
  · cases hmade
  · cases hwalk : u.tree.walk false true env.view.limit (Tree.start env.view (targetOf root s))
        (steps (trimSeps (targetOf root s))) with
    | error e =>
        rw [hwalk] at hmade
        cases hmade
    | ok loc =>
        rw [hwalk] at hmade
        dsimp only at hmade
        split at hmade
        · cases hmade
        · rename_i hnone
          have hn : u.tree.node loc = none := by simpa using hnone
          have hsteps := Tree.steps_of_new hwalk hn
          rw [hsteps, body_trimSeps] at hwalk
          have hne : body (targetOf root s) ≠ [] := by
            rw [← body_trimSeps, ← hsteps]
            exact steps_ne_nil _
          cases hmade
          exact ⟨loc, _, Tree.names_of_new hwalk hn hne hfree, hn, .dir hstatus, rfl⟩

theorem symlink_created {u : World} {text rel : OsString} {t' : Tree}
    (hstatus : u.tree.status env.view false s = .ok (.link text))
    (htaken : Tree.Taken env.view u.tree (targetOf root (linkPath s text)))
    (hrel : convertAbsRel (targetOf root (linkPath s text)) (targetOf root s) = some rel)
    (hfree : ¬ Tree.Taken env.view u.tree (targetOf root s))
    (hmade : u.tree.symlink env.view rel (targetOf root s) = .ok t') :
    ∃ loc n, Created env root s u.tree t' loc n := by
  rw [Tree.symlink] at hmade
  split at hmade
  · cases hmade
  · rename_i hne
    cases hlookup : u.tree.lookup env.view false true (targetOf root s) with
    | error e =>
        rw [hlookup] at hmade
        cases hmade
    | ok loc =>
        rw [hlookup] at hmade
        dsimp only at hmade
        split at hmade
        · cases hmade
        · rename_i hnone
          have hn : u.tree.node loc = none := by simpa using hnone
          obtain ⟨hwalk, hbody⟩ := body_of_new hlookup hn
          cases hmade
          exact ⟨loc, _, Tree.names_of_new hwalk hn hbody hfree, hn, .link hstatus hrel hne htaken,
            rfl⟩

theorem copyFile_created (hcalm : env.Faultless) {u u' : World} {m : Nat} {content : List UInt8}
    (hspecial : NoSpecial u.tree) (hstatus : u.tree.status env.view false s = .ok (.file m content))
    (hfrom : u.tree.status env.view true s = .ok (.file m content))
    (hfree : ¬ Tree.Taken env.view u.tree (targetOf root s))
    (hcopied : copyFile env fuel s (targetOf root s) u = some (.ok (.ok ()), u')) :
    ∃ loc n, Created env root s u.tree u'.tree loc n := by
  obtain ⟨c, hcopy, hret, hend⟩ := copyFile_cases hcopied
  obtain ⟨k, hk⟩ : ∃ k, c.result = .ok k := by
    cases hr : c.result with
    | ok k => exact ⟨k, rfl⟩
    | error e =>
        rw [hr] at hret
        cases hret
  obtain ⟨dst, hdst⟩ := copy_dst hcopy hk
  rcases hend with ⟨hno, _⟩ | ⟨dst', loc, l, m', mode, content', hdst', hopen, _, _, htree⟩
  · cases hno.symm.trans hdst
  · have hlookup := (openTo_ok hopen).1
    have hn : u.tree.node loc = none := by
      cases hn : u.tree.node loc with
      | none => rfl
      | some n =>
          have hagain := Tree.lookup_filled (.refl u.tree) (fun _ => ⟨n, hn, .inl ?_⟩) hlookup
          · exact absurd (Tree.taken_of_status (status_of_lookup hagain hn)) hfree
          · have hwalk := Tree.lookup_ok hlookup
            rcases hwalk.ends_at (hwalk.isDir_start (steps_ne_nil _)) with ⟨hnone, _⟩ | ⟨n', hn', hlink⟩
            · cases hnone.symm.trans hn
            · obtain rfl := Option.some.inj (hn.symm.trans hn')
              exact hlink
    obtain ⟨hwalk, hbody⟩ := body_of_new hlookup hn
    have hworks := kernelAt_works hcalm hspecial hfrom rfl hopen
    have hsource := kernelAt_source hfrom hopen (lookup_ne_of_none hfrom hn)
    have hwhole : Whole env content := by
      have hcan := ((copyFile_ok_iff hcalm hspecial hfrom rfl hcopied).mp rfl).2
      rw [hsource] at hcan
      exact hcan
    have hcontent := (copy_returned hworks.regular hcopy hk).1
    rw [hsource, env.content_layout] at hcontent
    obtain rfl := Option.some.inj (hdst'.symm.trans hcontent)
    rw [if_pos hworks.destIsFile] at htree
    exact ⟨loc, _, Tree.names_of_new hwalk hn hbody hfree, hn, .file hstatus hwhole, htree⟩

/-! ## Calls with their entry still to make -/

/-- A call on `s` in `v` has come to its branch in `u`, or to making its link. -/
inductive Pending (env : Env) (root : OsString) (f : Nat) (s : OsString) (v : World) : World → Prop
  | entry {n before relaxed u}
      (hentry : AtEntry env root (clonePath env root f) s v n before relaxed u) :
      Pending env root f s v u
  | link {path u} (hmakes : MakesLink env root f s v path u) : Pending env root f s v u

/-- The target ends in its last name, or in separators behind it; there is no entry yet,
and the target of the parent is no link that leads nowhere. -/
structure Settled (env : Env) (root s : OsString) (u : World) : Prop where
  named : endsBlank (trimSeps (targetOf root s)) = false
  free : ¬ Tree.Taken env.view u.tree (targetOf root s)
  leads : ∀ dir, parent s = some dir → Tree.Taken env.view u.tree (targetOf root dir) →
    ∃ n, u.tree.status env.view true (targetOf root dir) = .ok n

theorem settled_iff {u : World} : Settled env root s u ↔
    endsBlank (trimSeps (targetOf root s)) = false ∧
      ¬ Tree.Taken env.view u.tree (targetOf root s) ∧
      ∀ dir ∈ parent s, Tree.Taken env.view u.tree (targetOf root dir) →
        (u.tree.status env.view true (targetOf root dir)).isOk = true := by
  have hok {e : Except Errno Node} : e.isOk = true ↔ ∃ n, e = .ok n := by
    cases e with
    | error e => exact iff_of_false (fun h => by cases h) fun ⟨n, h⟩ => by cases h
    | ok n => exact iff_of_true rfl ⟨n, rfl⟩
  constructor
  · intro h
    exact ⟨h.named, h.free, fun dir hdir htaken => hok.mpr (h.leads dir hdir htaken)⟩
  · rintro ⟨hnamed, hfree, hleads⟩
    exact ⟨hnamed, hfree, fun dir hdir htaken => hok.mp (hleads dir hdir htaken)⟩

instance (env : Env) (root s : OsString) (u : World) : Decidable (Settled env root s u) :=
  decidable_of_iff _ settled_iff.symm

theorem AtEntry.status {v before after : World} {relaxed : Option (OsString × Nat)}
    (h : AtEntry env root (clonePath env root f) s v n before relaxed after) :
    ∃ n', after.tree.status env.view false s = .ok n' ∧ n.Like n' := by
  cases h with
  | intro _ _ _ hstatus hrelax =>
      obtain ⟨hsame, hok⟩ := ask_ok hstatus
      have hbefore := hok n rfl
      rw [← hsame.tree] at hbefore
      exact Tree.status_mono (relax_ok hrelax).2.forth hbefore

/-- What is no link is found by `stat` as by `lstat`. -/
theorem AtEntry.followed {v before after : World} {relaxed : Option (OsString × Nat)} {d : Node}
    (h : AtEntry env root (clonePath env root f) s v n before relaxed after)
    (hlink : n.isLink = false) (hfollow : after.tree.status env.view true s = .ok d) :
    after.tree.status env.view false s = .ok d := by
  obtain ⟨n', hstatus, hlike⟩ := h.status
  rw [Tree.status_unique hstatus (hlike.isLink.trans hlink) hfollow]
  exact hstatus

/-- What a branch that ends well has made, as long as nothing is in the place of the
target. -/
theorem EntryEnds.created (hcalm : env.Faultless) {v before after w' : World}
    {relaxed : Option (OsString × Nat)} (hplain : NoSpecial v.tree)
    (hentry : AtEntry env root (clonePath env root f) s v n before relaxed after)
    (hfree : ∀ u, Pending env root f s v u → ¬ Tree.Taken env.view u.tree (targetOf root s))
    (hclone : ∀ text w₁ w₂, n.isLink = true → readLink env s after = some (.ok (.ok text), w₁) →
      clonePath env root f (linkPath s text) w₁ = some (.ok (), w₂) →
      Tree.Taken env.view w₂.tree (targetOf root (linkPath s text)))
    (hends : EntryEnds env root (clonePath env root f) f s (targetOf root s) n after
      (.ok (.ok ())) w') :
    ∃ u loc n, Pending env root f s v u ∧ Created env root s u.tree w'.tree loc n := by
  generalize hret : (Except.ok () : Except CloneError Unit) = ret at hends
  cases hends with
  | @link text ret w₁ w₂ _ hlink hread hrun hmade =>
      obtain rfl := hret
      obtain ⟨hsame, hok⟩ := ask_ok hread
      have hstatus := Tree.readLink_ok (hok text rfl)
      rw [← hsame.tree] at hstatus
      obtain ⟨n', hstatus', hkind⟩ := Tree.status_keepsKinds (clonePath_keepsKinds hrun) hstatus
      obtain rfl := (hkind.2.2 text).mp rfl
      have hpending : Pending env root f s v _ := .link (.intro hentry hlink hread hrun)
      obtain ⟨rel, hrel, hlinked, _⟩ := lnR_ok hmade
      have hfree' := hfree _ hpending
      obtain ⟨loc, m, hcreated⟩ := symlink_created hstatus' (hclone _ _ _ hlink hread hrun) hrel
        hfree' hlinked
      exact ⟨_, loc, m, hpending, hcreated⟩
  | @dir ret w₁ _ hlink hdir hmade =>
      obtain rfl := mapError_eq_ok hret.symm
      obtain ⟨hsame, hok⟩ := isDir_ok hdir
      obtain ⟨d, hfollow, hd⟩ := hok rfl
      have hstatus := hentry.followed hlink hfollow
      have hlinked := (change_made hmade).2
      rw [World.line, hsame.tree] at hlinked
      cases d with
      | dir m =>
          obtain ⟨loc, m', hcreated⟩ := createDir_created hstatus (hfree _ (.entry hentry)) hlinked
          exact ⟨_, loc, m', .entry hentry, hcreated⟩
      | file m content => cases hd
      | link text => cases hd
      | special m => cases hd
  | @file ret w₁ w₂ _ hlink hdir hfile hcopy =>
      obtain rfl := mapError_eq_ok hret.symm
      have htree : w₂.tree = after.tree := (isFile_tree hfile).trans (isDir_tree hdir)
      obtain ⟨d, hfollow, hd⟩ := (isFile_ok hfile).2 rfl
      rw [isDir_tree hdir] at hfollow
      have hstatus := hentry.followed hlink hfollow
      have hfree' := hfree _ (.entry hentry)
      have hplain' := hentry.plain hplain
      rw [← htree] at hstatus hfollow hfree' hplain'
      cases d with
      | file m content =>
          obtain ⟨loc, m', hcreated⟩ := copyFile_created (u := w₂.line _) hcalm hplain' hstatus
            hfollow hfree' hcopy
          rw [World.line, htree] at hcreated
          exact ⟨_, loc, m', .entry hentry, hcreated⟩
      | dir m => cases hd
      | link text => cases hd
      | special m => cases hd

/-! ## Properties of the tree -/

/-- What a call starts from: a tree with all entries of `S` and with the property, and a
path that leads somewhere in `S`. -/
structure Starts (env : Env) (S : Tree) (J : Tree → Prop) (E : OsString → Prop) (s : OsString)
    (t : Tree) : Prop where
  keeps : Tree.Extends S t
  plain : NoSpecial t
  holds : J t
  leads : LeadsIn env.view S env.view.limit s
  expected : E s

/-- The target of the parent is there, and all entries of `S`. -/
structure Readied (env : Env) (root : OsString) (S : Tree) (s dir : OsString) (t : Tree) :
    Prop where
  pushed : Pushed s
  parent : parent s = some dir
  taken : Tree.Taken env.view t (targetOf root dir)
  keeps : Tree.Extends S t

/-- A property `J` of the tree that is kept when entries are made, in calls on paths with
`E` that are pending under `G`. -/
structure Carrying (env : Env) (root : OsString) (S : Tree) (G : OsString → World → Prop)
    (J : Tree → Prop) (E : OsString → Prop) : Prop where
  settled : ∀ s u, G s u → Settled env root s u
  alike : ∀ t t', Tree.Alike t t' → J t → J t'
  parent : ∀ s dir, Pushed s → parent s = some dir → E s → E dir
  link : ∀ s dir text u, G s u → Readied env root S s dir u.tree → J u.tree → E s →
    S.status env.view false s = .ok (.link text) → E (linkPath s text)
  make : ∀ s dir u t loc n, G s u → Readied env root S s dir u.tree → J u.tree → E s →
    Created env root s u.tree t loc n → MadeOf env root S u.tree s n → J t

/-- Every call of a run is pending under `G`. -/
def PendingUnder (env : Env) (root : OsString) (G : OsString → World → Prop) (f : Nat)
    (s : OsString) (v : World) : Prop :=
  ∀ u, Pending env root f s v u → G s u

/-- What a run with the bound `f` keeps when it ends well. -/
def Carries (env : Env) (root : OsString) (S : Tree) (G : OsString → World → Prop)
    (J : Tree → Prop) (E : OsString → Prop) (f : Nat) : Prop :=
  ∀ s w w', Starts env S J E s w.tree → EachCall env root (PendingUnder env root G) f s w →
    clonePath env root f s w = some (.ok (), w') →
    Tree.Extends S w'.tree ∧ J w'.tree ∧ Tree.Taken env.view w'.tree (targetOf root s)

variable {G : OsString → World → Prop} {J : Tree → Prop} {E : OsString → Prop}

theorem Starts.status (h : Starts env S J E s t) (hne : s ≠ []) :
    ∃ m, S.status env.view false s = .ok m := by
  obtain ⟨n, hexists⟩ := h.leads.status hne
  exact Tree.status_unfollowed hexists

/-- A link that is read is one of `S`. -/
theorem Starts.linkText {w w₁ : World} (h : Starts env S J E s w.tree) (hne : s ≠ [])
    (hread : readLink env s w = some (.ok (.ok text), w₁)) :
    S.status env.view false s = .ok (.link text) := by
  obtain ⟨m, hm⟩ := h.status hne
  have hlike := status_of_extends h.keeps hm (Tree.readLink_ok ((ask_ok hread).2 text rfl))
  cases m with
  | link text' =>
      obtain rfl := Node.link.inj hlike
      exact hm
  | dir m => cases hlike
  | file m content => cases hlike
  | special m => cases hlike

section Carrying

variable (hcalm : env.Faultless) (hC : Carrying env root S G J E)

include hcalm hC

/-- The call on the parent. -/
theorem Starts.parent {w w₁ : World} (h : Starts env S J E s w.tree)
    (hmissing : Missing env root s w w₁) (hparent : UnixPath.parent s = some dir) :
    Starts env S J E dir w₁.tree where
  keeps := hmissing.tree ▸ h.keeps
  plain := hmissing.tree ▸ h.plain
  holds := hmissing.tree ▸ h.holds
  leads := h.leads.parent hparent
  expected := hC.parent s dir (pushed_of_missing (hcalm.fault _)
    (h.leads.keepsKinds h.keeps.keepsKinds) hmissing) hparent h.expected

/-- A call that has come to its branch. -/
theorem Starts.entry (hcarries : Carries env root S G J E f) {v before after : World}
    {relaxed : Option (OsString × Nat)} (h : Starts env S J E s v.tree)
    (hall : EachCall env root (PendingUnder env root G) (f + 1) s v)
    (hentry : AtEntry env root (clonePath env root f) s v n before relaxed after) :
    Starts env S J E s after.tree ∧ ∃ dir, Readied env root S s dir after.tree := by
  have hplain := hentry.plain h.plain
  cases hentry with
  | @intro dir w₁ w₂ hmissing hparent hclone hstatus hrelax =>
      have hpushed := pushed_of_missing (hcalm.fault _) (h.leads.keepsKinds h.keeps.keepsKinds)
        hmissing
      obtain ⟨hkeeps, hJ, htaken⟩ := hcarries dir w₁ w₂ (h.parent hcalm hC hmissing hparent)
        (hall.parent hmissing hparent) hclone
      obtain ⟨hsame, _⟩ := ask_ok hstatus
      have halike := (relax_ok hrelax).2
      rw [hsame.tree] at halike
      have hkeeps' := hkeeps.trans halike.forth
      exact ⟨⟨hkeeps', hplain, hC.alike _ _ halike hJ, h.leads, h.expected⟩, dir, hpushed, hparent,
        htaken.keepsKinds halike.forth.keepsKinds, hkeeps'⟩

/-- The call on what a link leads to. -/
theorem Starts.link (hcarries : Carries env root S G J E f) {v before after w₁ : World}
    {relaxed : Option (OsString × Nat)} (h : Starts env S J E s v.tree)
    (hall : EachCall env root (PendingUnder env root G) (f + 1) s v)
    (hentry : AtEntry env root (clonePath env root f) s v n before relaxed after)
    (hread : readLink env s after = some (.ok (.ok text), w₁)) :
    Starts env S J E (linkPath s text) w₁.tree := by
  obtain ⟨hstarts, dir, hready⟩ := h.entry hcalm hC hcarries hall hentry
  have htext := hstarts.linkText hentry.ne_nil hread
  obtain ⟨loc, hloc, hnode⟩ := Tree.status_lookup htext
  obtain ⟨j, hj, hleads⟩ := h.leads.link hready.parent hloc hnode
  have hG := hall f s v (.self _ _ _) after (.entry hentry)
  have hE := hC.link s dir text after hG hready hstarts.holds h.expected htext
  rw [(ask_ok hread).1.tree]
  exact ⟨hstarts.keeps, hstarts.plain, hstarts.holds, hleads.mono (Nat.le_of_lt hj), hE⟩

/-- A pending call. -/
theorem Starts.pending (hcarries : Carries env root S G J E f) {v u : World}
    (h : Starts env S J E s v.tree)
    (hall : EachCall env root (PendingUnder env root G) (f + 1) s v)
    (hpending : Pending env root f s v u) :
    Starts env S J E s u.tree ∧ ∃ dir, Readied env root S s dir u.tree := by
  cases hpending with
  | entry hentry => exact h.entry hcalm hC hcarries hall hentry
  | link hmakes =>
      cases hmakes with
      | @intro n before relaxed after text w₁ w₂ hentry hlink hread hclone =>
          obtain ⟨hstarts, dir, hready⟩ := h.entry hcalm hC hcarries hall hentry
          have hlinked := h.link hcalm hC hcarries hall hentry hread
          obtain ⟨hkeeps, hJ, _⟩ := hcarries _ _ _ hlinked (hall.link hentry hlink hread) hclone
          have hplain := clonePath_noSpecial hclone hlinked.plain
          have hkinds := clonePath_keepsKinds hclone
          rw [(ask_ok hread).1.tree] at hkinds
          exact ⟨⟨hkeeps, hplain, hJ, h.leads, h.expected⟩, dir, hready.pushed, hready.parent,
            hready.taken.keepsKinds hkinds, hkeeps⟩

/-- A run that ends well keeps the property, and its target is there. -/
theorem Carrying.clonePath {m : Node} (hseat : S.status env.view true root = .ok m) (f : Nat) :
    Carries env root S G J E f := by
  induction f with
  | zero =>
      intro s w w' _ _ hrun
      cases hrun
  | succ f ih =>
      intro s w w' h hall hrun
      cases (cloneStep_ends hrun).returns with
      | found hfound =>
          obtain ⟨hsame, hok⟩ := ask_ok hfound
          rw [show w'.tree = w.tree from hsame.tree]
          exact ⟨h.keeps, h.holds, Tree.taken_of_status (hok _ rfl)⟩
      | top hmissing hparent =>
          have hpushed := pushed_of_missing (hcalm.fault _) (h.leads.keepsKinds h.keeps.keepsKinds)
            hmissing
          obtain ⟨m', hseat', _⟩ := Tree.status_mono h.keeps hseat
          rw [hmissing.tree]
          exact ⟨h.keeps, h.holds, taken_root hseat' hpushed (parent_eq_none hparent)⟩
      | @done n before relaxed after w₁ hentry hends hrestore =>
          obtain ⟨u, loc, n', hpending, hcreated⟩ := hends.created hcalm h.plain hentry
            (fun u hpending => (hC.settled s u (hall f s w (.self _ _ _) u hpending)).free)
            fun text w₁ w₂ hlink hread hclone =>
              (ih _ _ _ (h.link hcalm hC ih hall hentry hread) (hall.link hentry hlink hread) hclone).2.2
          obtain ⟨hstarts, dir, hready⟩ := h.pending hcalm hC ih hall hpending
          obtain ⟨m', hm'⟩ := h.status hentry.ne_nil
          have hJ := hC.make s dir u _ loc n' (hall f s w (.self _ _ _) u hpending) hready
            hstarts.holds h.expected hcreated (hcreated.made.of_extends hstarts.keeps hm')
          have hgrows : Tree.Extends u.tree w₁.tree := by
            rw [hcreated.put]
            exact Tree.put_extends fun n hn => by cases hcreated.free.symm.trans hn
          have hnode : w₁.tree.node loc = some n' := by
            rw [hcreated.put, Tree.put_node (hcreated.names.fits hcreated.free), if_pos rfl]
          have htaken := (hcreated.names.keepsKinds hgrows.keepsKinds).taken hnode
          have halike := (restore_ok hrestore).2
          exact ⟨hstarts.keeps.trans (hgrows.trans halike.forth), hC.alike _ _ halike hJ,
            htaken.keepsKinds halike.forth.keepsKinds⟩

/-- The calls that are made in the course of a run. -/
theorem Starts.nested {m : Node} (hseat : S.status env.view true root = .ok m) {g : Nat}
    {w v : World} {p : OsString} (h : Starts env S J E s w.tree)
    (hall : EachCall env root (PendingUnder env root G) f s w)
    (hnested : Nested env root f s w g p v) :
    Starts env S J E p v.tree ∧ EachCall env root (PendingUnder env root G) g p v := by
  induction hnested with
  | self => exact ⟨h, hall⟩
  | parent hmissing hparent _ ih =>
      exact ih (h.parent hcalm hC hmissing hparent) (hall.parent hmissing hparent)
  | link hentry hlink hread _ ih =>
      exact ih (h.link hcalm hC (hC.clonePath hcalm hseat _) hall hentry hread)
        (hall.link hentry hlink hread)

end Carrying

end File
end DracutInstall

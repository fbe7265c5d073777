/-
When `clone_path` succeeds, in terms of the source tree.

`Comes` follows the calls of a run, without the run: a path comes with the places that
are below the destination by then.  Under what the other claims about links ask of the
paths (`SoundWay`) an `Ok` run fills just these places (`Course.grows`), so that it
is known beforehand whether the entry of a path that comes can be made (`ClearAt`).
`clonePath_succeeds_iff` says that `clone_path` returns `Ok` just if that is so of all
of them.
-/
import DracutInstall.File.ClonePlaces

namespace DracutInstall
namespace File

open ByteCodec Rust Process UnixPath FileTree Tree

/-! ## The paths that come -/

/-- A call on the path comes when the places `K` are there; `through` says that its target
is gone through later.  A path whose places are all there goes no further. -/
inductive Comes (v : View) (S : Tree) (source : OsString) : Bool → Set Loc → OsString → Prop
  | source : Comes v S source false ∅ source
  | parent {through K p dir} (h : Comes v S source through K p) (hnew : ¬ places S p ⊆ K)
      (hparent : parent p = some dir) : Comes v S source true K dir
  | link {through K p dir text} (h : Comes v S source through K p) (hnew : ¬ places S p ⊆ K)
      (hparent : parent p = some dir) (hlink : S.status v false p = .ok (.link text)) :
      Comes v S source through (K ∪ places S dir) (linkPath p text)

variable {env : Env} {v : View} {root source p dir text name : OsString} {S C C₁ C' : Tree}
  {R d loc : Loc} {K : Set Loc} {j k f : Nat} {through : Bool} {m n : Node}

/-- The paths that come are sound, and so are the links that are gone through. -/
structure SoundWay (v : View) (S : Tree) (source : OsString) : Prop where
  sound : ∀ through K p, Comes v S source through K p → Sound S p
  link : ∀ K p text, Comes v S source true K p → ¬ places S p ⊆ K →
    S.status v false p = .ok (.link text) → LinkSound S p (linkPath p text)

/-- What does not stand in the way of an entry at `loc`, when the places `K` are there:
a directory and a link need a free place, a directory a path that does not end in `/.`, a
link something else to lead to than its directory or what is above it on the way there,
and a file with data must not end in a hole. -/
def ClearFor (env : Env) (K : Set Loc) (p dir : OsString) (loc : Loc) : Node → Prop
  | .dir _ => endsBlank (trimSeps p) = false ∧ loc ∉ K
  | .link text => ¬ body (linkPath p text) <+: body dir ∧ loc ∉ K
  | .file _ content => Whole env content
  | .special _ => False

/-- The path ends in a name, and nothing stands in the way of its entry once the places of
its directory are there. -/
def ClearAt (env : Env) (S : Tree) (K : Set Loc) (p : OsString) : Prop :=
  ∃ dir d name m, parent p = some dir ∧ body p = body dir ++ [.normal name] ∧
    Walks S true false [] (body dir) d ∧ S.node (d ++ [name]) = some m ∧
    ClearFor env (K ∪ places S dir) p dir (d ++ [name]) m

theorem Comes.leads (h : Comes v S source through K p) (hleads : LeadsIn v S k source) :
    LeadsIn v S k p := by
  induction h with
  | source => exact hleads
  | parent _ _ hparent ih => exact ih.parent hparent
  | link _ _ hparent hlink ih =>
      obtain ⟨loc, hloc, htext⟩ := status_lookup hlink
      obtain ⟨i, hi, hleads⟩ := ih.link hparent hloc htext
      exact hleads.mono (Nat.le_of_lt hi)

/-! ## Runs -/

/-- A source that exists, to be cloned into an empty directory on a sound way, with no
system call failing for a reason of its own. -/
structure Course (env : Env) (root source : OsString) (S : Tree) (j k : Nat) (R : Loc) : Prop where
  faultless : env.Faultless
  plain : NoSpecial S
  seat : Seat env.view root S j R
  leads : LeadsIn env.view S k source
  limit : j + k ≤ env.view.limit
  way : SoundWay env.view S source

/-- What the calls add, if they end well: the places of their paths. -/
def Grows (env : Env) (root source : OsString) (S : Tree) (R : Loc) (f : Nat) : Prop :=
  ∀ through K p w w', Comes env.view S source through K p → Replica S w.tree R K →
    NoSpecial w.tree → clonePath env root f p w = some (.ok (), w') →
      Grown S w.tree R through (K ∪ places S p) w'.tree

/-- Only a name at the end of a path leads its target to what is no directory. -/
theorem Pushed.last_normal {c : Component} {follow missing : Bool} (h : Pushed p)
    (hbody : UnixPath.body p = UnixPath.body dir ++ [c])
    (hwalk : Walks C follow missing (Tree.start v (File.targetOf root p))
      (UnixPath.body (File.targetOf root p)) loc)
    (hstart : C.isDir (Tree.start v root) = true) (hloc : C.isDir loc = false) :
    ∃ name, c = .normal name := by
  rw [h.start, h.body, hbody, ← List.append_assoc] at hwalk
  obtain ⟨pre, name, hlast⟩ := hwalk.last_name hstart hloc
  exact ⟨name, List.singleton_inj.mp (List.append_inj' hlast rfl).2⟩

theorem Spot.mono (h : Spot S C R p dir d name m) (hext : Extends C C') :
    Spot S C' R p dir d name m :=
  ⟨h.body, h.leads, h.mirrored.mono hext, h.node⟩

section Course

variable (hc : Course env root source S j k R) (hcomes : Comes env.view S source through K p)

include hc hcomes

theorem Comes.sound : Sound S p := hc.way.sound _ _ _ hcomes

theorem Comes.found_iff (hR : Replica S C R K) :
    (∃ n, C.status env.view false (targetOf root p) = .ok n) ↔ places S p ⊆ K :=
  hc.seat.found_iff hR (hcomes.sound hc) (hcomes.leads hc.leads) hc.limit

/-- A path whose target is missing has places that are not there. -/
theorem Comes.new {w w₁ : World} (hR : Replica S w.tree R K) (hmissing : Missing env root p w w₁) :
    ¬ places S p ⊆ K := by
  intro hplaces
  obtain ⟨n, hn⟩ := (hcomes.found_iff hc hR).mpr hplaces
  obtain ⟨e, he⟩ := hmissing.status (hc.faultless.fault _)
  cases hn.symm.trans he

/-- What the source tree has at the end of the path. -/
theorem Comes.status_source {n : Node} (hext : Extends S C) (hne : p ≠ [])
    (hstatus : C.status env.view false p = .ok n) :
    ∃ m, S.status env.view false p = .ok m ∧ m.Like n := by
  obtain ⟨m', hexists⟩ := ((hcomes.leads hc.leads).mono
    (Nat.le_trans (Nat.le_add_left k j) hc.limit)).status hne
  obtain ⟨m, hm⟩ := status_unfollowed hexists
  exact ⟨m, hm, status_of_extends hext hm hstatus⟩

section Entry

variable (hgrows : Grows env root source S R f) {w before after w₁ : World} {n : Node}
  {relaxed : Option (OsString × Nat)} (hR : Replica S w.tree R K) (hw : NoSpecial w.tree)
  (hentry : AtEntry env root (clonePath env root f) p w n before relaxed after)

include hgrows hR hw hentry

/-- Once a call has come to its branch the places of the parent are there. -/
theorem Comes.arrives : ¬ places S p ⊆ K ∧ ∃ dir, UnixPath.parent p = some dir ∧
    Extends w.tree after.tree ∧ Replica S after.tree R (K ∪ places S dir) := by
  cases hentry with
  | @intro dir w₁ w₂ hmissing hparent hclone hstatus hrelax =>
      have hnew := hcomes.new hc hR hmissing
      have hR₁ : Replica S w₁.tree R K := by
        rw [hmissing.tree]
        exact hR
      have hgrown := hgrows _ _ _ _ _ (.parent hcomes hnew hparent) hR₁ (hmissing.tree ▸ hw) hclone
      obtain ⟨hsame, _⟩ := ask_ok hstatus
      have halike := (relax_ok hrelax).2
      rw [hsame.tree] at halike
      have hkeeps := hgrown.keeps.trans halike.forth
      rw [hmissing.tree] at hkeeps
      exact ⟨hnew, dir, hparent, hkeeps, (hgrown.replica rfl).alike halike⟩

/-- The path a link stands for comes next. -/
theorem Comes.follows (hread : after.tree.readLink env.view p = .ok text)
    (hparent : UnixPath.parent p = some dir) :
    S.status env.view false p = .ok (.link text) ∧
      Comes env.view S source through (K ∪ places S dir) (linkPath p text) := by
  obtain ⟨hnew, dir', hparent', hkeeps, _⟩ := hcomes.arrives hc hgrows hR hw hentry
  obtain ⟨m, hm, hlike⟩ := hcomes.status_source hc (hR.mirror.keeps.trans hkeeps) hentry.ne_nil
    (readLink_ok hread)
  have hlink : S.status env.view false p = .ok (.link text) := by
    rw [hm, hlike.symm.link]
  exact ⟨hlink, .link hcomes hnew hparent hlink⟩

/-- The place of the entry a branch is to make. -/
theorem Comes.spot (hparent : UnixPath.parent p = some dir)
    (hbody : body p = body dir ++ [.normal name]) :
    ∃ d m, Spot S after.tree R p dir d name m ∧ m.Like n ∧ after.tree.isDir (R ++ d) = true ∧
      Names env.view after.tree (targetOf root p) (R ++ (d ++ [name])) := by
  obtain ⟨_, dir', hparent', _, hR₁⟩ := hcomes.arrives hc hgrows hR hw hentry
  obtain rfl := Option.some.inj (hparent.symm.trans hparent')
  obtain ⟨d, m, hp, hnames, hdir⟩ := hc.seat.names hR₁ (hcomes.sound hc) (hcomes.leads hc.leads)
    hc.limit Set.subset_union_right hbody
  obtain ⟨n', hstatus, hlike⟩ := hentry.status
  have hlike' := hp.like (hcomes.sound hc) hR₁.mirror.keeps hstatus
  exact ⟨d, m, hp, hlike'.trans hlike.symm, hdir, hnames⟩

/-- What made a link had nothing in its way, and adds the places of the path. -/
theorem Comes.grows_link {w₂ : World} {rel : OsString}
    (hread : after.tree.readLink env.view p = .ok text) (hsame : World.Same after w₁)
    (hclone : clonePath env root f (linkPath p text) w₁ = some (.ok (), w₂))
    (hrel : convertAbsRel (targetOf root (linkPath p text)) (targetOf root p) = some rel)
    (hmade : w₂.tree.symlink env.view rel (targetOf root p) = .ok C') :
    ClearAt env S K p ∧ Grown S w.tree R through (K ∪ places S p) C' := by
  have hsound := hcomes.sound hc
  obtain ⟨hnew, dir, hparent, hkeeps, hR₁⟩ := hcomes.arrives hc hgrows hR hw hentry
  obtain ⟨_, c, hbody⟩ := parent_eq_some hsound.absolute hparent
  obtain ⟨hlinkS, hcomes'⟩ := hcomes.follows hc hgrows hR hw hentry hread hparent
  have hgrown := hgrows _ _ _ _ _ hcomes' (hsame.tree ▸ hR₁) (hsame.tree ▸ hentry.plain hw) hclone
  rw [hsame.tree] at hgrown
  obtain ⟨loc, hwalk, hnone, _⟩ := symlink_ok hmade
  obtain ⟨name, rfl⟩ := hsound.pushed.last_normal hbody hwalk
    (hc.seat.isDir_start_of (hR₁.mirror.keeps.trans hgrown.keeps)) (isDir_of_none hnone)
  obtain ⟨d, m, hp, _, hdir, hnames⟩ := hcomes.spot hc hgrows hR hw hentry hparent hbody
  obtain rfl := (hp.like hsound hR₁.mirror.keeps (readLink_ok hread)).symm.link
  obtain ⟨hother, hfree, hmade⟩ := hc.seat.makes_link hgrown hsound (hcomes'.sound hc)
    (fun hthrough => hc.way.link K p text (hthrough ▸ hcomes) hnew hlinkS)
    (endsBlank_of_status hlinkS rfl) hparent hp hnames hdir
    (Set.union_subset_union_left _ Set.subset_union_right) hrel hmade
  refine ⟨⟨dir, d, name, _, hparent, hbody, hp.leads, hp.node, hother, fun hmem => ?_⟩, ?_⟩
  · exact hfree (Set.mem_union_left _ hmem)
  · rw [places_link hparent hbody hp.leads hp.node, Set.union_insert, ← Set.union_assoc]
    exact .trans hkeeps hmade

/-- So had what made a directory. -/
theorem Comes.grows_dir {e : Node} {mode : Nat} (hlink : n.isLink = false)
    (hfollow : after.tree.status env.view true p = .ok e) (he : e.isDir = true)
    (hmade : after.tree.mkdir env.view (targetOf root p) mode = .ok C') :
    ClearAt env S K p ∧ Grown S w.tree R through (K ∪ places S p) C' := by
  have hsound := hcomes.sound hc
  obtain ⟨_, dir, hparent, hkeeps, hR₁⟩ := hcomes.arrives hc hgrows hR hw hentry
  obtain ⟨_, c, hbody⟩ := parent_eq_some hsound.absolute hparent
  obtain ⟨loc, hwalk, hnone, _⟩ := mkdir_ok hmade
  obtain ⟨name, rfl⟩ := hsound.pushed.last_normal hbody hwalk
    (hc.seat.isDir_start_of hR₁.mirror.keeps) (isDir_of_none hnone)
  obtain ⟨d, m, hp, hlike, _, hnames⟩ := hcomes.spot hc hgrows hR hw hentry hparent hbody
  have hm : m.isLink = false := hlike.isLink.symm.trans hlink
  obtain ⟨mode', rfl⟩ := (hp.like_followed hsound hm hR₁.mirror.keeps hfollow).dir he
  obtain ⟨hblank, hfree, hmade⟩ := makes_dir through hR₁ hp hnames hmade
  rw [hsound.pushed.endsBlank_trimSeps root (by simp [hbody])] at hblank
  refine ⟨⟨dir, d, name, _, hparent, hbody, hp.leads, hp.node, hblank, hfree⟩, ?_⟩
  rw [places_entry hbody hp.leads hp.node rfl, Set.union_insert]
  exact .trans hkeeps hmade

/-- And so had a copy. -/
theorem Comes.grows_file {u : World} {e : Node} (hlink : n.isLink = false)
    (hfollow : after.tree.status env.view true p = .ok e) (he : e.isFile = true)
    (htree : w₁.tree = after.tree)
    (hcopy : copyFile env f p (targetOf root p) w₁ = some (.ok (.ok ()), u)) :
    ClearAt env S K p ∧ Grown S w.tree R through (K ∪ places S p) u.tree := by
  have hsound := hcomes.sound hc
  obtain ⟨_, dir, hparent, hkeeps, hR₁⟩ := hcomes.arrives hc hgrows hR hw hentry
  obtain ⟨_, c, hbody⟩ := parent_eq_some hsound.absolute hparent
  obtain ⟨_, _, _, _, loc, _, _, hto, hno, _⟩ := copyFile_ok (hc.faultless.steady _) hcopy
  rw [htree] at hto hno
  obtain ⟨name, rfl⟩ : ∃ name, c = .normal name := by
    rcases walks_body hto with ⟨_, hwalk⟩ | ⟨_, _, hisDir⟩
    · exact hsound.pushed.last_normal hbody hwalk (hc.seat.isDir_start_of hR₁.mirror.keeps) hno
    · rw [hno] at hisDir
      cases hisDir
  obtain ⟨d, m, hp, hlike, hdir, hnames⟩ := hcomes.spot hc hgrows hR hw hentry hparent hbody
  have hm : m.isLink = false := hlike.isLink.symm.trans hlink
  have hlikeFollowed := hp.like_followed hsound hm hR₁.mirror.keeps hfollow
  have hplain := hentry.plain hw
  rw [← htree] at hR₁ hp hnames hdir hfollow hkeeps hplain
  obtain ⟨mode, mode', content, rfl, rfl⟩ := hlikeFollowed.file he
  obtain ⟨hwhole, hmade⟩ := hc.seat.makes_file through hc.faultless hR₁ hsound hplain hp hnames hdir
    hfollow hcopy
  refine ⟨⟨dir, d, name, _, hparent, hbody, hp.leads, hp.node, hwhole⟩, ?_⟩
  rw [places_entry hbody hp.leads hp.node rfl, Set.union_insert]
  exact .trans hkeeps hmade

/-- A branch that ends well had nothing in its way, and adds the places of the path. -/
theorem Comes.grows {u : World}
    (hends : EntryOk env root (clonePath env root f) f p (targetOf root p) n after u) :
    ClearAt env S K p ∧ Grown S w.tree R through (K ∪ places S p) u.tree := by
  cases hends with
  | link hlink hread hsame hclone hrel hmade _ =>
      exact hcomes.grows_link hc hgrows hR hw hentry hread hsame hclone hrel hmade
  | dir hlink hfollow he hmade _ =>
      exact hcomes.grows_dir hc hgrows hR hw hentry hlink hfollow he hmade
  | file hlink hfollow he htree _ hcopy =>
      exact hcomes.grows_file hc hgrows hR hw hentry hlink hfollow he htree hcopy

end Entry

end Course

/-- An `Ok` run fills the places of its path. -/
theorem Course.grows (hc : Course env root source S j k R) (f : Nat) :
    Grows env root source S R f := by
  induction f with
  | zero => exact fun _ _ _ _ _ _ _ _ hrun => nomatch hrun
  | succ f ih =>
      intro through K p w w' hcomes hR hw hrun
      cases (cloneStep_ends hrun).returns with
      | found hfound =>
          obtain ⟨hsame, hok⟩ := ask_ok hfound
          have hplaces := (hcomes.found_iff hc hR).mp ⟨_, hok _ rfl⟩
          rw [show w'.tree = w.tree from hsame.tree, Set.union_eq_self_of_subset_right hplaces]
          exact grown_of_replica hR through
      | top hmissing hparent =>
          rw [hmissing.tree, places_nil (parent_eq_none hparent), Set.union_empty]
          exact grown_of_replica hR through
      | done hentry hends hrestore =>
          exact (hcomes.grows hc ih hR hw hentry hends.ok).2.alike (restore_ok hrestore).2

section Calls

variable (hc : Course env root source S j k R) (hcomes : Comes env.view S source through K p)

include hc hcomes

/-- The calls of a run are on paths that come. -/
theorem Comes.nested {w u : World} {g : Nat} {s : OsString} (hR : Replica S w.tree R K)
    (hw : NoSpecial w.tree) (hnested : Nested env root f p w g s u) :
    ∃ through' K', Comes env.view S source through' K' s ∧ Replica S u.tree R K' ∧
      NoSpecial u.tree := by
  induction hnested generalizing through K with
  | self => exact ⟨through, K, hcomes, hR, hw⟩
  | parent hmissing hparent _ ih =>
      exact ih (.parent hcomes (hcomes.new hc hR hmissing) hparent) (hmissing.tree ▸ hR)
        (hmissing.tree ▸ hw)
  | link hentry hlink hread _ ih =>
      obtain ⟨_, dir, hparent, _, hR₁⟩ := hcomes.arrives hc (hc.grows _) hR hw hentry
      obtain ⟨hsame, hok⟩ := ask_ok hread
      obtain ⟨_, hcomes'⟩ := hcomes.follows hc (hc.grows _) hR hw hentry (hok _ rfl) hparent
      exact ih hcomes' (hsame.tree ▸ hR₁) (hsame.tree ▸ hentry.plain hw)

/-- A call with nothing in its way can make what it comes to make. -/
theorem Comes.unblocked {w : World} (hR : Replica S w.tree R K) (hw : NoSpecial w.tree)
    (hclear : ¬ places S p ⊆ K → ClearAt env S K p) : Unblocked env root f p w := by
  have hsound := hcomes.sound hc
  -- what is known of the place of the entry when the call has come to its branch
  have hsite {n before relaxed after}
      (hentry : AtEntry env root (clonePath env root f) p w n before relaxed after) :
      ∃ dir d name m, UnixPath.parent p = some dir ∧ Replica S after.tree R (K ∪ places S dir) ∧
        Spot S after.tree R p dir d name m ∧ m.Like n ∧
        Names env.view after.tree (targetOf root p) (R ++ (d ++ [name])) ∧
        ClearFor env (K ∪ places S dir) p dir (d ++ [name]) m := by
    obtain ⟨hnew, dir, hparent, _, hR₁⟩ := hcomes.arrives hc (hc.grows f) hR hw hentry
    obtain ⟨dir', d, name, m, hparent', hbody, hd, hm, hfor⟩ := hclear hnew
    obtain rfl := Option.some.inj (hparent.symm.trans hparent')
    obtain ⟨d', m', hp, hlike, _, hnames⟩ := hcomes.spot hc (hc.grows f) hR hw hentry hparent hbody
    obtain rfl := hp.leads.unique hd
    obtain rfl := Option.some.inj (hp.node.symm.trans hm)
    exact ⟨dir, d', name, m', hparent, hR₁, hp, hlike, hnames, hfor⟩
  refine ⟨?_, ?_, ?_⟩
  · rintro u ⟨hentry, hlink, hdir, rfl⟩
    obtain ⟨dir, d, name, m, _, hR₁, hp, hlike, hnames, hfor⟩ := hsite hentry
    obtain ⟨e, hfollow, he⟩ := (isDir_ok hdir).2 rfl
    have hm : m.isLink = false := hlike.isLink.symm.trans hlink
    obtain ⟨mode, rfl⟩ := (hp.like_followed hsound hm hR₁.mirror.keeps hfollow).dir he
    show CanMakeDir env.view _ (targetOf root p)
    rw [World.line, isDir_tree hdir]
    refine (canMakeDir_iff hnames).mpr ⟨?_, ?_⟩
    · rw [hsound.pushed.endsBlank_trimSeps root (by simp [hp.body])]
      exact hfor.1
    · by_contra hsome
      exact hfor.2 ((hR₁.made _ (by simp)).mp hsome)
  · intro u hcopies
    obtain @⟨_, _, _, after, w₁, w₂, hentry, hlink, hdir, hfile, rfl⟩ := hcopies
    obtain ⟨dir, d, name, m, _, hR₁, hp, hlike, hnames, hfor⟩ := hsite hentry
    obtain ⟨e, hfollow, he⟩ := (isFile_ok hfile).2 rfl
    have hm : m.isLink = false := hlike.isLink.symm.trans hlink
    have htree : w₂.tree = after.tree := (isFile_tree hfile).trans (isDir_tree hdir)
    rw [isDir_tree hdir] at hfollow
    have hlikeFollowed := hp.like_followed hsound hm hR₁.mirror.keeps hfollow
    rw [← htree] at hR₁ hp hnames hfollow
    obtain ⟨mode, mode', content, rfl, rfl⟩ := hlikeFollowed.file he
    exact (hc.seat.canCopy_iff (u := w₂.line _) hR₁ hsound hp hfollow hnames).mpr hfor
  · intro path u hmakes
    cases hmakes with
    | @intro n before relaxed after text w₁ w₂ hentry hlink hread hclone =>
        obtain ⟨dir, d, name, m, hparent, hR₁, hp, hlike, hnames, hfor⟩ := hsite hentry
        obtain ⟨hsame, hok⟩ := ask_ok hread
        obtain ⟨hlinkS, hcomes'⟩ := hcomes.follows hc (hc.grows f) hR hw hentry (hok _ rfl) hparent
        obtain rfl := (hp.like hsound hR₁.mirror.keeps (readLink_ok (hok _ rfl))).symm.link
        have hgrown := hc.grows f _ _ _ _ _ hcomes' (hsame.tree ▸ hR₁)
          (hsame.tree ▸ hentry.plain hw) hclone
        have hkeeps := hgrown.keeps
        rw [hsame.tree] at hkeeps
        refine (hc.seat.canLink_iff hsound (hcomes'.sound hc) (endsBlank_of_status hlinkS rfl)
          hp.body (hnames.keepsKinds hkeeps.keepsKinds)).mpr ⟨hfor.1, ?_⟩
        by_contra hsome
        rcases (hgrown.filled _ (by simp)).mp hsome with hmem | hmem
        · exact hfor.2 hmem
        · obtain ⟨y, _, hone⟩ := hp.leads_one hsound
          have hnew : d ++ [name] ∉ places S dir := fun hmem => hfor.2 (Set.mem_union_right _ hmem)
          exact link_not_visited hparent hp.leads hp.node hnew ⟨y, hone⟩ hmem

/-- An `Ok` call on a path with places that are not there has come to its branch, and that
has ended well. -/
theorem Comes.ended {w w' : World} (hR : Replica S w.tree R K) (hnew : ¬ places S p ⊆ K)
    (hrun : clonePath env root (f + 1) p w = some (.ok (), w')) :
    ∃ n before relaxed after u, AtEntry env root (clonePath env root f) p w n before relaxed after ∧
      EntryOk env root (clonePath env root f) f p (targetOf root p) n after u := by
  cases (cloneStep_ends hrun).returns with
  | found hfound =>
      exact absurd ((hcomes.found_iff hc hR).mp ⟨_, (ask_ok hfound).2 _ rfl⟩) hnew
  | top _ hparent =>
      rw [places_nil (parent_eq_none hparent)] at hnew
      exact absurd (Set.empty_subset K) hnew
  | done hentry hends _ => exact ⟨_, _, _, _, _, hentry, hends.ok⟩

end Calls

/-- An `Ok` run comes to every path that comes. -/
theorem Comes.reached {w w' : World} {fuel : Nat} (hc : Course env root source w.tree j k R)
    (hrun : clonePath env root fuel source w = some (.ok (), w'))
    (hcomes : Comes env.view w.tree source through K p) :
    ∃ f u u', Replica w.tree u.tree R K ∧ NoSpecial u.tree ∧
      clonePath env root f p u = some (.ok (), u') := by
  induction hcomes with
  | source => exact ⟨fuel, w, w', replica_empty hc.seat.dir hc.seat.empty, hc.plain, hrun⟩
  | parent hcomes hnew hparent ih =>
      obtain ⟨f, u, u', hR, hu, hrun⟩ := ih
      cases f with
      | zero => cases hrun
      | succ f =>
          obtain ⟨n, before, relaxed, after, _, hentry, _⟩ := hcomes.ended hc hR hnew hrun
          cases hentry with
          | @intro dir w₁ w₂ hmissing hparent' hclone _ _ =>
              obtain rfl := Option.some.inj (hparent.symm.trans hparent')
              exact ⟨f, w₁, w₂, hmissing.tree ▸ hR, hmissing.tree ▸ hu, hclone⟩
  | @link through K p dir text hcomes hnew hparent hlinkS ih =>
      obtain ⟨f, u, u', hR, hu, hrun⟩ := ih
      cases f with
      | zero => cases hrun
      | succ f =>
          obtain ⟨n, before, relaxed, after, _, hentry, hends⟩ := hcomes.ended hc hR hnew hrun
          obtain ⟨_, dir', hparent', _, hR₁⟩ := hcomes.arrives hc (hc.grows f) hR hu hentry
          obtain rfl := Option.some.inj (hparent.symm.trans hparent')
          obtain ⟨n', hstatus, hlike⟩ := hentry.status
          have hislink : n.isLink = true :=
            hlike.isLink.symm.trans (status_of_extends hR₁.mirror.keeps hlinkS hstatus).isLink
          cases hends with
          | @link text' rel w₁ w₂ _ hread hsame hclone _ _ _ =>
              obtain ⟨hlinkS', _⟩ := hcomes.follows hc (hc.grows f) hR hu hentry hread hparent
              obtain rfl := Node.link.inj (Except.ok.inj (hlinkS.symm.trans hlinkS'))
              exact ⟨f, w₁, w₂, hsame.tree ▸ hR₁, hsame.tree ▸ hentry.plain hu, hclone⟩
          | dir hlink _ _ _ _ => cases hislink.symm.trans hlink
          | file hlink _ _ _ _ _ => cases hislink.symm.trans hlink

namespace Sample

/-- The text of a link goes through a directory that is not there yet. -/
def dotDot : Tree := .ofEntries [
  ([ascii "r"], .dir 0o755), ([ascii "d"], .dir 0o755), ([ascii "f"], .file 0o644 [1, 2]),
  ([ascii "l"], .link (ascii "d/../f"))]

end Sample

end File
end DracutInstall

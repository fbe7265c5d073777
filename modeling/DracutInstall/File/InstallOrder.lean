/-
`install_files` on the same files in another order.

Let one order end well.  Each entry it has made is `Explained` by a path; in the
other order the calls go through a tree that never has more than the first one has
in the end, so that what they are about to make can be made, and is alike.  With the
two orders exchanged that gives `installFiles_perm`.
-/
import DracutInstall.File.CloneTrace

namespace DracutInstall
namespace File

open ByteCodec Rust Process UnixPath FileTree

variable {env : Env} {root source s s' dir : OsString} {fuel f : Nat} {S T t t' : Tree}
  {files files' : List OsString} {w w' u : World} {n n' : Node} {loc : Loc}

/-! ## The calls of an installation -/

/-- The run on the files comes to a call on `s` that is pending in `u`. -/
inductive PendsIn (env : Env) (root : OsString) : List OsString → World → OsString → World → Prop
  | here {fuel f file files w s v u} (hnested : Nested env root fuel file w (f + 1) s v)
      (hpending : Pending env root f s v u) : PendsIn env root (file :: files) w s u
  | later {fuel file files w w₁ s u} (hrun : clonePath env root fuel file w = some (.ok (), w₁))
      (hrest : PendsIn env root files w₁ s u) : PendsIn env root (file :: files) w s u

theorem eachCall_of_pendsIn {G : OsString → World → Prop} {file : OsString}
    (hG : ∀ s u, PendsIn env root (file :: files) w s u → G s u) (fuel : Nat) :
    EachCall env root (PendingUnder env root G) fuel file w :=
  fun _ s _ hnested u hpending => hG s u (.here hnested hpending)

/-- The paths lead to like entries; of a link they are one path. -/
def SameEntry (v : Tree.View) (t : Tree) (s s' : OsString) : Prop :=
  ∃ n n', t.status v false s = .ok n ∧ t.status v false s' = .ok n' ∧ n.Like n' ∧
    (n.isLink = true → s = s')

theorem SameEntry.symm {v : Tree.View} (h : SameEntry v t s s') : SameEntry v t s' s := by
  obtain ⟨n, n', hn, hn', hlike, hlink⟩ := h
  exact ⟨n', n, hn', hn, hlike.symm, fun hisLink => (hlink (hlike.isLink.symm.trans hisLink)).symm⟩

/-! ## What has been made -/

theorem MadeOf.like (hlike : n.Like n') (h : MadeOf env root S t s n) : MadeOf env root S t s n' := by
  cases h with
  | dir hstatus =>
      cases n' with
      | dir m => exact .dir hstatus
      | file m content => cases hlike
      | link text => cases hlike
      | special m => cases hlike
  | file hstatus hwhole =>
      cases n' with
      | file m content =>
          obtain ⟨_, rfl⟩ := Node.file.inj hlike
          exact .file hstatus hwhole
      | dir m => cases hlike
      | link text => cases hlike
      | special m => cases hlike
  | link hstatus hrel hne htaken =>
      obtain rfl := hlike.link
      exact .link hstatus hrel hne htaken

/-- What is made of like entries is alike. -/
theorem MadeOf.like_of_same (hsame : SameEntry env.view S s s') (h : MadeOf env root S t s n)
    (h' : MadeOf env root S t' s' n') : n.Like n' := by
  obtain ⟨m, m', hm, hm', hlike, hlink⟩ := hsame
  cases h with
  | dir hstatus =>
      obtain rfl := Except.ok.inj (hm.symm.trans hstatus)
      cases h' with
      | dir hstatus' => rfl
      | file hstatus' _ =>
          obtain rfl := Except.ok.inj (hm'.symm.trans hstatus')
          cases hlike
      | link hstatus' _ _ _ =>
          obtain rfl := Except.ok.inj (hm'.symm.trans hstatus')
          cases hlike
  | file hstatus _ =>
      obtain rfl := Except.ok.inj (hm.symm.trans hstatus)
      cases h' with
      | dir hstatus' =>
          obtain rfl := Except.ok.inj (hm'.symm.trans hstatus')
          cases hlike
      | file hstatus' _ =>
          obtain rfl := Except.ok.inj (hm'.symm.trans hstatus')
          obtain ⟨_, rfl⟩ := Node.file.inj hlike
          rfl
      | link hstatus' _ _ _ =>
          obtain rfl := Except.ok.inj (hm'.symm.trans hstatus')
          cases hlike
  | link hstatus hrel _ _ =>
      obtain rfl := Except.ok.inj (hm.symm.trans hstatus)
      obtain rfl := hlink rfl
      cases h' with
      | dir hstatus' => cases hstatus.symm.trans hstatus'
      | file hstatus' _ => cases hstatus.symm.trans hstatus'
      | link hstatus' hrel' _ _ =>
          obtain rfl := Node.link.inj (Except.ok.inj (hstatus.symm.trans hstatus'))
          obtain rfl := Option.some.inj (hrel.symm.trans hrel')
          rfl

/-- Each entry that `S` does not have has been made of a path with `Q`. -/
def Explained (env : Env) (root : OsString) (S : Tree) (Q : OsString → Loc → Prop) (t : Tree) :
    Prop :=
  ∀ loc n, t.node loc = some n → S.node loc = none → ∃ s, Q s loc ∧ MadeOf env root S t s n

/-- What is pending is settled, and `Q` holds of it and of the place it names. -/
def Explains (env : Env) (root : OsString) (Q : OsString → Loc → Prop) (s : OsString) (u : World) :
    Prop :=
  Settled env root s u ∧ ∀ loc, Tree.Names env.view u.tree (targetOf root s) loc → Q s loc

theorem carrying_explained (env : Env) (root : OsString) (S : Tree) (Q : OsString → Loc → Prop) :
    Carrying env root S (Explains env root Q) (Explained env root S Q) fun _ => True where
  settled s u hG := hG.1
  alike t t' halike hJ := by
    intro loc n hn hnone
    obtain ⟨n', hn', hlike⟩ := halike.back loc n hn
    obtain ⟨s, hQ, hmade⟩ := hJ loc n' hn' hnone
    exact ⟨s, hQ, (hmade.keepsKinds halike.forth.keepsKinds).like hlike.symm⟩
  parent _ _ _ _ _ := trivial
  link _ _ _ _ _ _ _ _ _ := trivial
  make s dir u t loc n hG hready hJ _ hcreated hmade := by
    intro l n' hn' hnone
    have hkinds : Tree.KeepsKinds u.tree t := by
      rw [hcreated.put]
      exact (Tree.put_extends fun n'' hn'' => by cases hcreated.free.symm.trans hn'').keepsKinds
    rw [hcreated.put, Tree.put_node (hcreated.names.fits hcreated.free)] at hn'
    split at hn'
    · rename_i heq
      obtain rfl := Option.some.inj hn'
      rw [heq]
      exact ⟨s, hG.2 loc hcreated.names, hmade.keepsKinds hkinds⟩
    · obtain ⟨s', hQ, hmade'⟩ := hJ l n' hn' hnone
      exact ⟨s', hQ, hmade'.keepsKinds hkinds⟩

/-! ## The other order -/

/-- What is pending is settled, and agrees with whatever has `Q` for the place it names. -/
def Agrees (env : Env) (root : OsString) (S : Tree) (Q : OsString → Loc → Prop) (s : OsString)
    (u : World) : Prop :=
  Settled env root s u ∧ ∀ loc s', Tree.Names env.view u.tree (targetOf root s) loc → Q s' loc →
    SameEntry env.view S s s'

/-- The place of a target that is missing here and taken in the larger tree. -/
theorem Readied.names (hready : Readied env root S s dir u.tree) (hsettled : Settled env root s u)
    (hwithin : Tree.Extends u.tree T) (htaken : Tree.Taken env.view T (targetOf root s)) :
    ∃ loc n, Tree.Names env.view u.tree (targetOf root s) loc ∧ u.tree.node loc = none ∧
      T.node loc = some n := by
  have hpushedDir := hready.pushed.parent hready.parent
  have hsame : Tree.start env.view (targetOf root dir) = Tree.start env.view (targetOf root s) := by
    rw [hpushedDir.start, hready.pushed.start]
  obtain ⟨c, hbody⟩ : ∃ c, body s = body dir ++ [c] := by
    rcases body_parent hready.parent with ⟨hnil, hdirNil⟩ | hlast
    · -- the target of `.` is the destination, as that of its parent is
      refine absurd (hready.taken.congr hsame.symm ?_) hsettled.free
      rw [hready.pushed.body, hpushedDir.body, hnil, hdirNil, body_nil]
    · exact hlast
  have htarget : body (targetOf root s) = body root ++ body dir ++ [c] := by
    rw [hready.pushed.body, hbody, List.append_assoc]
  obtain ⟨n, hstatus⟩ := hsettled.leads dir hready.parent hready.taken
  obtain ⟨_, hstart, k, hk, loc, hwalk⟩ := Tree.status_walksIn.mp ⟨n, hstatus⟩
  rw [hsame] at hstart
  rw [steps, hpushedDir.body, hsame] at hwalk
  obtain ⟨a, b, mid, hab, hwalk, _⟩ := hwalk.split
  obtain ⟨k', _, mid', hwalk', hdir'⟩ := htaken.dir htarget
  obtain rfl := hwalk'.walks.unique (hwalk.keepsKinds hwithin.keepsKinds).walks
  obtain ⟨m, hm, _⟩ := hwalk.walks.ends hstart
  have hdir : u.tree.isDir mid' = true := by
    obtain ⟨m', hm', hlike⟩ := hwithin mid' m hm
    rw [Tree.isDir, hm'] at hdir'
    rw [Tree.isDir, hm]
    exact hlike.isDir.symm.trans hdir'
  obtain ⟨loc', hnames, hnone⟩ := Tree.names_of_free htarget (by omega) hwalk hdir hsettled.free
  obtain ⟨n', hn'⟩ := (hnames.keepsKinds hwithin.keepsKinds).node htaken
  exact ⟨loc', n', hnames, hnone, hn'⟩

section Within

variable {Q : OsString → Loc → Prop} (hT : Explained env root S Q T)

include hT

/-- What has been made there in the larger tree is made of a like entry. -/
theorem Readied.expected (hready : Readied env root S s dir u.tree)
    (hagrees : Agrees env root S Q s u) (hwithin : Tree.Extends u.tree T)
    (htaken : Tree.Taken env.view T (targetOf root s)) :
    ∃ loc n s', Tree.Names env.view u.tree (targetOf root s) loc ∧ u.tree.node loc = none ∧
      T.node loc = some n ∧ SameEntry env.view S s s' ∧ MadeOf env root S T s' n := by
  obtain ⟨loc, n, hnames, hnone, hn⟩ := hready.names hagrees.1 hwithin htaken
  have hnew : S.node loc = none := by
    cases hold : S.node loc with
    | none => rfl
    | some m =>
        obtain ⟨m', hm', _⟩ := hready.keeps loc m hold
        cases hnone.symm.trans hm'
  obtain ⟨s', hQ, hmade⟩ := hT loc n hn hnew
  exact ⟨loc, n, s', hnames, hnone, hn, hagrees.2 loc s' hnames hQ, hmade⟩

/-- A link, and what has been made of it. -/
theorem Readied.expected_link {text : OsString} (hready : Readied env root S s dir u.tree)
    (hagrees : Agrees env root S Q s u) (hwithin : Tree.Extends u.tree T)
    (htaken : Tree.Taken env.view T (targetOf root s))
    (hstatus : S.status env.view false s = .ok (.link text)) :
    ∃ loc rel, Tree.Names env.view u.tree (targetOf root s) loc ∧ u.tree.node loc = none ∧
      convertAbsRel (targetOf root (linkPath s text)) (targetOf root s) = some rel ∧ rel ≠ [] ∧
      Tree.Taken env.view T (targetOf root (linkPath s text)) := by
  obtain ⟨loc, n, s', hnames, hnone, _, hsame, hmade⟩ := hready.expected hT hagrees hwithin htaken
  obtain ⟨m, m', hm, _, _, hlink⟩ := hsame
  obtain rfl := Except.ok.inj (hm.symm.trans hstatus)
  obtain rfl := hlink rfl
  cases hmade with
  | dir hstatus' => cases hstatus.symm.trans hstatus'
  | file hstatus' _ => cases hstatus.symm.trans hstatus'
  | link hstatus' hrel hne htaken =>
      obtain rfl := Node.link.inj (Except.ok.inj (hstatus.symm.trans hstatus'))
      exact ⟨loc, _, hnames, hnone, hrel, hne, htaken⟩

theorem carrying_within : Carrying env root S (Agrees env root S Q) (fun t => Tree.Extends t T)
    fun s => Tree.Taken env.view T (targetOf root s) where
  settled s u hG := hG.1
  alike t t' halike hJ := halike.back.trans hJ
  parent s dir hpushed hparent hE := taken_parent hpushed hparent hE
  link s dir text u hG hready hJ hE hstatus := by
    obtain ⟨_, _, _, _, _, _, htaken⟩ := hready.expected_link hT hG hJ hE hstatus
    exact htaken
  make s dir u t loc n hG hready hJ hE hcreated hmade := by
    obtain ⟨loc', n', s', hnames, _, hn', hsame, hmade'⟩ := hready.expected hT hG hJ hE
    obtain rfl := hcreated.names.unique hnames
    intro l m hm
    rw [hcreated.put, Tree.put_node (hcreated.names.fits hcreated.free)] at hm
    split at hm
    · rename_i heq
      obtain rfl := Option.some.inj hm
      rw [heq]
      exact ⟨n', hn', hmade.like_of_same hsame hmade'⟩
    · exact hJ l m hm

end Within

/-! ## Nothing in the way -/

theorem MadeOf.whole {mode : Nat} {content : List UInt8} (hkeeps : Tree.Extends S t')
    (hstatus : t'.status env.view false s = .ok (.file mode content))
    (hsame : SameEntry env.view S s s') (h : MadeOf env root S t s' n) : Whole env content := by
  obtain ⟨m, m', hm, hm', hlike, _⟩ := hsame
  have hlike' := hlike.symm.trans (status_of_extends hkeeps hm hstatus)
  cases h with
  | dir hmade =>
      obtain rfl := Except.ok.inj (hm'.symm.trans hmade)
      cases hlike'
  | file hmade hwhole =>
      obtain rfl := Except.ok.inj (hm'.symm.trans hmade)
      obtain ⟨_, rfl⟩ := Node.file.inj hlike'
      exact hwhole
  | link hmade _ _ _ =>
      obtain rfl := Except.ok.inj (hm'.symm.trans hmade)
      cases hlike'

/-- Whatever a call is about to make can be made. -/
theorem Starts.unblocked {Q : OsString → Loc → Prop} (hT : Explained env root S Q T) (hcalm : env.Faultless) {m : Node} {v : World}
    (hseat : S.status env.view true root = .ok m)
    (h : Starts env S (fun t => Tree.Extends t T) (fun s => Tree.Taken env.view T (targetOf root s)) s
      v.tree)
    (hall : EachCall env root (PendingUnder env root (Agrees env root S Q)) (f + 1) s v) :
    Unblocked env root f s v := by
  have hcarries := (carrying_within hT).clonePath hcalm hseat f
  have hagrees {u} (hpending : Pending env root f s v u) : Agrees env root S Q s u :=
    hall f s v (.self _ _ _) u hpending
  have hready {u} (hpending : Pending env root f s v u) :=
    h.pending hcalm (carrying_within hT) hcarries hall hpending
  refine ⟨?_, ?_, ?_⟩
  · rintro u ⟨hentry, hlink, hdir, rfl⟩
    obtain ⟨hstarts, dir, hready⟩ := hready (.entry hentry)
    have hagrees := hagrees (.entry hentry)
    obtain ⟨loc, _, hnames, hnone, _⟩ := hready.names hagrees.1 hstarts.holds h.expected
    show CanMakeDir env.view _ (targetOf root s)
    rw [World.line, isDir_tree hdir]
    exact (canMakeDir_iff hnames).mpr ⟨hagrees.1.named, hnone⟩
  · intro u hcopies
    obtain @⟨_, _, _, after, w₁, w₂, hentry, hlink, hdir, hfile, rfl⟩ := hcopies
    obtain ⟨hstarts, dir, hready⟩ := hready (.entry hentry)
    obtain ⟨loc, n, s', hnames, hnone, _, hsame, hmade⟩ :=
      hready.expected hT (hagrees (.entry hentry)) hstarts.holds h.expected
    obtain ⟨d, hfollow, hd⟩ := (isFile_ok hfile).2 rfl
    rw [isDir_tree hdir] at hfollow
    have hstatus := hentry.followed hlink hfollow
    cases d with
    | file mode content =>
        have hwhole := hmade.whole hready.keeps hstatus hsame
        have hlookup := lookup_new true hready.pushed
          (endsBlank_of_status hstatus rfl) hnames hnone
        have hopen : openTo env after.tree (targetOf root s) = .ok loc := by
          rw [openTo, hlookup]
          exact if_neg (Bool.not_eq_true _ ▸ Tree.isDir_of_none hnone)
        have htree : w₂.tree = after.tree := (isFile_tree hfile).trans (isDir_tree hdir)
        rw [← htree] at hfollow hopen hnone
        refine ⟨⟨loc, hopen⟩, ?_⟩
        rw [kernelAt_source (u := w₂.line _) hfollow hopen (lookup_ne_of_none hfollow hnone)]
        exact hwhole
    | dir mode => cases hd
    | link text => cases hd
    | special mode => cases hd
  · intro path u hmakes
    have hpending : Pending env root f s v u := .link hmakes
    obtain ⟨hstarts, dir, hready⟩ := hready hpending
    cases hmakes with
    | intro hentry hlink hread hclone =>
        have hstatus := (h.entry hcalm (carrying_within hT) hcarries hall hentry).1.linkText hentry.ne_nil hread
        obtain ⟨loc, rel, hnames, hnone, hrel, hne, _⟩ :=
          hready.expected_link hT (hagrees hpending) hstarts.holds h.expected hstatus
        have hlookup := lookup_new false hready.pushed
          (endsBlank_of_status hstatus rfl) hnames hnone
        exact ⟨rel, hrel, hne, loc, hlookup, hnone⟩

/-! ## Installations -/

theorem installFiles_cons {file : OsString} {r : Outcome CloneError Unit}
    (h : installFiles env root fuel (file :: files) w = some (r, w')) :
    (∃ w₁, clonePath env root fuel file w = some (.ok (), w₁) ∧
        installFiles env root fuel files w₁ = some (r, w')) ∨
      (∃ e, clonePath env root fuel file w = some (.err e, w') ∧ r = .err e) ∨
      (clonePath env root fuel file w = some (.panic, w') ∧ r = .panic) := by
  rcases bind_eq_some.mp h with ⟨_, w₁, hclone, hrest⟩ | ⟨e, hclone, hr⟩ | ⟨hclone, hr⟩
  · exact .inl ⟨w₁, hclone, hrest⟩
  · exact .inr (.inl ⟨e, hclone, hr⟩)
  · exact .inr (.inr ⟨hclone, hr⟩)

theorem installFiles_below {fuel' : Nat} (hle : fuel ≤ fuel') :
    Approx (installFiles env root fuel files) (installFiles env root fuel' files) := by
  induction files with
  | nil => exact .refl _
  | cons file files ih => exact (clonePath_below hle).bind fun _ => ih

theorem installFiles_agree {fuel' : Nat} {out out' : Outcome CloneError Unit × World}
    (h : installFiles env root fuel files w = some out)
    (h' : installFiles env root fuel' files w = some out') : out = out' := by
  rcases Nat.le_total fuel fuel' with hle | hle
  · exact Option.some.inj ((installFiles_below hle w out h).symm.trans h')
  · exact Option.some.inj (h.symm.trans (installFiles_below hle w out' h'))

/-- A run on one more file. -/
theorem installFiles_append {fuel' : Nat} {file : OsString} {w₁ : World}
    {r : Outcome CloneError Unit} (hclone : clonePath env root fuel file w = some (.ok (), w₁))
    (hrest : installFiles env root fuel' files w₁ = some (r, w')) :
    installFiles env root (max fuel fuel') (file :: files) w = some (r, w') :=
  bind_eq_some.mpr (.inl ⟨(), w₁, clonePath_below (Nat.le_max_left _ _) _ _ hclone,
    installFiles_below (Nat.le_max_right _ _) _ _ hrest⟩)

theorem clonePath_ne_panic (hcalm : env.Faultless) (hsound : Clonable env source w) :
    clonePath env root fuel source w ≠ some (.panic, w') := by
  induction fuel generalizing source w w' with
  | zero => exact fun h => by cases h
  | succ fuel ih =>
      intro h
      have hends := cloneStep_ends h
      generalize hr : (Outcome.panic : Outcome CloneError Unit) = r at hends
      cases hends with
      | parentUnwound hmissing hparent hclone => exact ih (hsound.parent hmissing hparent) hclone
      | unwound hentry hends =>
          cases hends with
          | unwound hlink hread hclone => exact ih (hsound.link hentry hread) hclone
          | other hlink hdir hfile =>
              obtain ⟨n, hstatus, hkind⟩ := (hsound.atEntry hentry).kind hentry.ne_nil
              have hnoDir := isDir_answers (hcalm.fault _) hstatus hdir
              rw [← isDir_tree hdir] at hstatus
              have hnoFile := isFile_answers (hcalm.fault _) hstatus hfile
              rw [← hnoDir, ← hnoFile] at hkind
              rcases hkind with heq | heq
              · cases heq
              · cases heq
      | @done n before relaxed after ret w₁ _ _ _ _ =>
          cases ret with
          | ok u => cases hr
          | error e => cases hr
      | found _ => cases hr
      | top _ _ => cases hr
      | parentFailed _ _ _ => cases hr
      | noSource _ _ _ _ => cases hr
      | notRelaxed _ _ _ _ _ => cases hr
      | left _ _ => cases hr
      | notRestored _ _ _ => cases hr

/-- A run on files that exist returns `Ok` or `Err`. -/
theorem installFiles_comes_back (hcalm : env.Faultless) (root : OsString)
    (hfiles : ∀ file ∈ files, Clonable env file w) :
    ∃ fuel, (∃ w', installFiles env root fuel files w = some (.ok (), w')) ∨
      ∃ e w', installFiles env root fuel files w = some (.err e, w') := by
  induction files generalizing w with
  | nil => exact ⟨0, .inl ⟨w, rfl⟩⟩
  | cons file files ih =>
      have hsound := hfiles file List.mem_cons_self
      obtain ⟨fuel, ⟨r, w₁⟩, hclone⟩ := clonePath_comes_back hcalm root hsound
      cases r with
      | ok u =>
          have hrest : ∀ file ∈ files, Clonable env file w₁ := fun p hp =>
            (hfiles p (List.mem_cons_of_mem _ hp)).of_keepsKinds
              (clonePath_noSpecial hclone hsound.plain) (clonePath_keepsKinds hclone)
          obtain ⟨fuel', ⟨w', hrun⟩ | ⟨e, w', hrun⟩⟩ := ih hrest
          · exact ⟨_, .inl ⟨w', installFiles_append hclone hrun⟩⟩
          · exact ⟨_, .inr ⟨e, w', installFiles_append hclone hrun⟩⟩
      | err e => exact ⟨fuel, .inr ⟨e, w₁, bind_eq_some.mpr (.inr (.inl ⟨e, hclone, rfl⟩))⟩⟩
      | panic => exact absurd hclone (clonePath_ne_panic hcalm hsound)

section Order

variable (hcalm : env.Faultless) {m : Node} (hseat : S.status env.view true root = .ok m)

include hcalm hseat

/-- What one call carries, a run on all files carries. -/
theorem Carrying.installFiles {G : OsString → World → Prop} {J : Tree → Prop}
    {E : OsString → Prop} (hC : Carrying env root S G J E)
    (hG : ∀ s u, PendsIn env root files w s u → G s u) (hkeeps : Tree.Extends S w.tree)
    (hplain : NoSpecial w.tree) (hJ : J w.tree)
    (hfiles : ∀ file ∈ files, LeadsIn env.view S env.view.limit file ∧ E file)
    (hrun : installFiles env root fuel files w = some (.ok (), w')) :
    Tree.Extends S w'.tree ∧ Tree.KeepsKinds w.tree w'.tree ∧ J w'.tree ∧
      ∀ file ∈ files, Tree.Taken env.view w'.tree (targetOf root file) := by
  induction files generalizing w with
  | nil =>
      obtain ⟨_, rfl⟩ := pure_eq_some.mp hrun
      exact ⟨hkeeps, .refl _, hJ, fun _ hfile => by cases hfile⟩
  | cons file files ih =>
      rcases installFiles_cons hrun with ⟨w₁, hclone, hrest⟩ | ⟨e, _, hr⟩ | ⟨_, hr⟩
      · obtain ⟨hleads, hE⟩ := hfiles file List.mem_cons_self
        obtain ⟨hkeeps₁, hJ₁, htaken⟩ := hC.clonePath hcalm hseat fuel file w w₁
          ⟨hkeeps, hplain, hJ, hleads, hE⟩ (eachCall_of_pendsIn hG fuel) hclone
        obtain ⟨hkeeps', hkinds, hJ', htaken'⟩ := ih (fun s u hpends => hG s u (.later hclone hpends)) hkeeps₁
          (clonePath_noSpecial hclone hplain) hJ₁
          (fun p hp => hfiles p (List.mem_cons_of_mem _ hp)) hrest
        refine ⟨hkeeps', (clonePath_keepsKinds hclone).trans hkinds, hJ', fun p hp => ?_⟩
        rcases List.mem_cons.mp hp with rfl | hp
        · exact htaken.keepsKinds hkinds
        · exact htaken' p hp
      · cases hr
      · cases hr

/-- A call with nothing in its way returns `Ok`. -/
theorem Starts.ok {Q : OsString → Loc → Prop} (hT : Explained env root S Q T)
    (h : Starts env S (fun t => Tree.Extends t T) (fun s => Tree.Taken env.view T (targetOf root s)) s
      w.tree)
    (hall : ∀ fuel, EachCall env root (PendingUnder env root (Agrees env root S Q)) fuel s w) :
    ∃ fuel w', clonePath env root fuel s w = some (.ok (), w') := by
  have hsound : Clonable env s w := ⟨h.plain, h.leads.keepsKinds h.keeps.keepsKinds⟩
  obtain ⟨fuel, ⟨r, w'⟩, hrun⟩ := clonePath_comes_back hcalm root hsound
  have hunblocked : EachCall env root (Unblocked env root) fuel s w := by
    intro f p v hnested
    obtain ⟨hstarts, hcalls⟩ := h.nested hcalm (carrying_within hT) hseat (hall fuel) hnested
    exact hstarts.unblocked hT hcalm hseat hcalls
  obtain rfl := clonePath_ok hcalm hsound hunblocked hrun
  exact ⟨fuel, w', hrun⟩

/-- So does a run on files whose targets are there in the larger tree, and it makes no
more than that has. -/
theorem installFiles_ok {Q : OsString → Loc → Prop} (hT : Explained env root S Q T)
    (hG : ∀ s u, PendsIn env root files w s u → Agrees env root S Q s u)
    (hkeeps : Tree.Extends S w.tree) (hplain : NoSpecial w.tree) (hwithin : Tree.Extends w.tree T)
    (hfiles : ∀ file ∈ files, LeadsIn env.view S env.view.limit file ∧
      Tree.Taken env.view T (targetOf root file)) :
    ∃ fuel w', File.installFiles env root fuel files w = some (.ok (), w') ∧
      Tree.Extends w'.tree T := by
  induction files generalizing w with
  | nil => exact ⟨0, w, rfl, hwithin⟩
  | cons file files ih =>
      obtain ⟨hleads, htaken⟩ := hfiles file List.mem_cons_self
      have hstarts : Starts env S (fun t => Tree.Extends t T)
          (fun s => Tree.Taken env.view T (targetOf root s)) file w.tree :=
        ⟨hkeeps, hplain, hwithin, hleads, htaken⟩
      obtain ⟨fuel, w₁, hclone⟩ := hstarts.ok hcalm hseat hT (eachCall_of_pendsIn hG)
      obtain ⟨hkeeps₁, hwithin₁, _⟩ := (carrying_within hT).clonePath hcalm hseat fuel file w w₁
        hstarts (eachCall_of_pendsIn hG fuel) hclone
      obtain ⟨fuel', w', hrest, hwithin'⟩ := ih (fun s u hpends => hG s u (.later hclone hpends))
        hkeeps₁ (clonePath_noSpecial hclone hplain) hwithin₁
        fun p hp => hfiles p (List.mem_cons_of_mem _ hp)
      exact ⟨_, w', installFiles_append hclone hrest, hwithin'⟩

end Order

/-- Two pending calls for one place are calls for one entry. -/
def Agree (env : Env) (root : OsString) (w : World) (files files' : List OsString) : Prop :=
  ∀ s u s' u' loc, PendsIn env root files w s u → PendsIn env root files' w s' u' →
    Tree.Names env.view u.tree (targetOf root s) loc →
    Tree.Names env.view u'.tree (targetOf root s') loc → SameEntry env.view w.tree s s'

theorem Agree.symm (h : Agree env root w files files') : Agree env root w files' files :=
  fun s u s' u' loc hs hs' hnames hnames' => (h s' u' s u loc hs' hs hnames' hnames).symm

/-- If some files can be installed, so can any of them, and no more is made. -/
theorem installFiles_within (hcalm : env.Faultless) {m : Node} (hplain : NoSpecial w.tree)
    (hroot : w.tree.status env.view true root = .ok m)
    (hfiles : ∀ file ∈ files', LeadsIn env.view w.tree env.view.limit file) (hsub : files ⊆ files')
    (hsettled : ∀ s u, PendsIn env root files w s u → Settled env root s u)
    (hsettled' : ∀ s u, PendsIn env root files' w s u → Settled env root s u)
    (hagree : Agree env root w files files')
    (hrun : installFiles env root fuel files' w = some (.ok (), w')) :
    ∃ fuel u, installFiles env root fuel files w = some (.ok (), u) ∧
      Tree.Extends u.tree w'.tree := by
  let Q : OsString → Loc → Prop := fun s loc => ∃ u, PendsIn env root files' w s u ∧
    Tree.Names env.view u.tree (targetOf root s) loc
  have hstart : Explained env root w.tree Q w.tree := fun loc n hn hnone => by
    cases hnone.symm.trans hn
  obtain ⟨hgrows, _, hT, htaken⟩ := (carrying_explained env root w.tree Q).installFiles hcalm hroot
    (fun s u hpends => ⟨hsettled' s u hpends, fun loc hnames => ⟨u, hpends, hnames⟩⟩)
    (.refl _) hplain hstart (fun file hfile => ⟨hfiles file hfile, trivial⟩) hrun
  refine installFiles_ok hcalm hroot hT ?_ (.refl _) hplain hgrows fun file hfile =>
    ⟨hfiles file (hsub hfile), htaken file (hsub hfile)⟩
  intro s u hpends
  refine ⟨hsettled s u hpends, ?_⟩
  rintro loc s' hnames ⟨u', hpends', hnames'⟩
  exact hagree s u s' u' loc hpends hpends' hnames hnames'

/-- On files that exist, among directories, files and links, with no system call failing
for a reason of its own: two orders in which what is pending is settled and agrees both
return `Ok`, with the same tree but for modes, or both return `Err`. -/
theorem installFiles_perm (hcalm : env.Faultless) {m : Node} (hplain : NoSpecial w.tree)
    (hroot : w.tree.status env.view true root = .ok m)
    (hfiles : ∀ file ∈ files, ∃ n, w.tree.status env.view true file = .ok n)
    (hperm : files.Perm files')
    (hsettled : ∀ s u, PendsIn env root files w s u → Settled env root s u)
    (hsettled' : ∀ s u, PendsIn env root files' w s u → Settled env root s u)
    (hagree : Agree env root w files files') :
    (∃ fuel fuel' u u', installFiles env root fuel files w = some (.ok (), u) ∧
        installFiles env root fuel' files' w = some (.ok (), u') ∧ Tree.Alike u.tree u'.tree) ∨
      ∃ fuel fuel' e e' u u', installFiles env root fuel files w = some (.err e, u) ∧
        installFiles env root fuel' files' w = some (.err e', u') := by
  have hleads : ∀ file ∈ files, LeadsIn env.view w.tree env.view.limit file := fun file hfile => by
    obtain ⟨n, hstatus⟩ := hfiles file hfile
    exact leadsIn_of_status hstatus
  have hleads' : ∀ file ∈ files', LeadsIn env.view w.tree env.view.limit file := fun file hfile =>
    hleads file (hperm.mem_iff.mpr hfile)
  obtain ⟨fuel, hends⟩ := installFiles_comes_back hcalm root
    fun file hfile => (⟨hplain, hleads file hfile⟩ : Clonable env file w)
  obtain ⟨fuel', hends'⟩ := installFiles_comes_back hcalm root
    fun file hfile => (⟨hplain, hleads' file hfile⟩ : Clonable env file w)
  rcases hends with ⟨u, hrun⟩ | ⟨e, u, hrun⟩
  · obtain ⟨fuel₁, u', hrun', hback⟩ := installFiles_within hcalm hplain hroot hleads
      hperm.symm.subset hsettled' hsettled hagree.symm hrun
    obtain ⟨fuel₂, u₂, hrun₂, hforth⟩ := installFiles_within hcalm hplain hroot hleads' hperm.subset
      hsettled hsettled' hagree hrun'
    obtain rfl := (Prod.mk.inj (installFiles_agree hrun₂ hrun)).2
    exact .inl ⟨fuel, fuel₁, u₂, u', hrun, hrun', hforth, hback⟩
  · rcases hends' with ⟨u', hrun'⟩ | ⟨e', u', hrun'⟩
    · obtain ⟨fuel₂, u₂, hrun₂, _⟩ := installFiles_within hcalm hplain hroot hleads' hperm.subset
        hsettled hsettled' hagree hrun'
      cases (Prod.mk.inj (installFiles_agree hrun₂ hrun)).1
    · exact .inr ⟨fuel, fuel', e, e', u, u', hrun, hrun'⟩

/-- The calls of an installation that come to be pending are all listed with a bound that
lets it come back. -/
theorem PendsIn.mem_pendingCalls {r : Outcome CloneError Unit}
    (hrun : installFiles env root fuel files w = some (r, w')) (h : PendsIn env root files w s u) :
    (s, u) ∈ pendingCalls env root fuel files w := by
  induction h with
  | here hnested hpending =>
      rcases bind_eq_some.mp hrun with ⟨_, _, hfirst, _⟩ | ⟨_, hfirst, _⟩ | ⟨hfirst, _⟩
      · exact List.mem_append_left _ (hpending.mem_atCalls hfirst hnested)
      · exact List.mem_append_left _ (hpending.mem_atCalls hfirst hnested)
      · exact List.mem_append_left _ (hpending.mem_atCalls hfirst hnested)
  | later hclone _ ih =>
      rcases bind_eq_some.mp hrun with ⟨_, w₁, hfirst, hrest⟩ | ⟨_, hfirst, _⟩ | ⟨hfirst, _⟩
      · obtain rfl := (Prod.mk.inj (clonePath_agree hfirst hclone)).2
        refine List.mem_append_right _ (List.mem_flatMap.mpr ⟨((), w₁), ?_, ih hrest⟩)
        rw [hfirst]
        exact Option.mem_toList.mpr rfl
      · cases (Prod.mk.inj (clonePath_agree hfirst hclone)).1
      · cases (Prod.mk.inj (clonePath_agree hfirst hclone)).1

/-- The place of a target that is not taken. -/
def placeOf (env : Env) (root s : OsString) (u : World) : Option Loc :=
  (u.tree.walk false true env.view.limit (Tree.start env.view (targetOf root s))
    (body (targetOf root s))).toOption

theorem placeOf_names (hsettled : Settled env root s u)
    (hnames : Tree.Names env.view u.tree (targetOf root s) loc) : placeOf env root s u = some loc := by
  have hnone : u.tree.node loc = none := by
    cases hn : u.tree.node loc with
    | none => rfl
    | some n => exact absurd (hnames.taken hn) hsettled.free
  rw [placeOf, hnames.walk_new hnone]
  rfl

/-- Two orders agree where their pending calls are settled, and those for one place are
for one path. -/
theorem agree_of_pendingCalls {fuel' : Nat} {r r' : Outcome CloneError Unit} {u' : World}
    (hrun : installFiles env root fuel files w = some (r, u))
    (hrun' : installFiles env root fuel' files' w = some (r', u'))
    (hsettled : ∀ c ∈ pendingCalls env root fuel files w, Settled env root c.1 c.2)
    (hsettled' : ∀ c ∈ pendingCalls env root fuel' files' w, Settled env root c.1 c.2)
    (hfound : ∀ c ∈ pendingCalls env root fuel files w,
      (w.tree.status env.view false c.1).isOk = true)
    (hplaces : ∀ c ∈ pendingCalls env root fuel files w,
      ∀ c' ∈ pendingCalls env root fuel' files' w,
        placeOf env root c.1 c.2 = placeOf env root c'.1 c'.2 → c.1 = c'.1) :
    Agree env root w files files' := by
  intro s u s' u' loc h h' hnames hnames'
  have hmem := h.mem_pendingCalls hrun
  have hmem' := h'.mem_pendingCalls hrun'
  obtain rfl : s = s' := by
    apply hplaces _ hmem _ hmem'
    rw [placeOf_names (hsettled _ hmem) hnames, placeOf_names (hsettled' _ hmem') hnames']
  have hok := hfound _ hmem
  cases hstatus : w.tree.status env.view false s with
  | error e =>
      dsimp only at hok
      rw [hstatus] at hok
      cases hok
  | ok n => exact ⟨n, n, hstatus, hstatus, .refl n, fun _ => rfl⟩

namespace Sample

/-- Whether an installation returns `Ok`. -/
def succeeds (tree : Tree) (files : List OsString) : Bool :=
  (installFiles calm (ascii "/r") 9 files (World.start tree ⟨true, true⟩)).any fun out =>
    decide (out.1 = .ok ())

-- `mkdir` meets what has come to be at the target with the link that is its parent
example :
    let tree := Tree.ofEntries [([ascii "r"], .dir 0o755), ([ascii "d"], .dir 0o755),
      ([ascii "d", ascii "s"], .dir 0o755), ([ascii "l"], .link (ascii "d"))]
    succeeds tree [ascii "/l/s", ascii "/d/s"] = true ∧
      succeeds tree [ascii "/d/s", ascii "/l/s"] = false := by decide +kernel

-- the target of the parent is a link below the destination, and leads nowhere at first
example :
    let tree := Tree.ofEntries [([ascii "r"], .dir 0o755), ([ascii "a"], .dir 0o755),
      ([ascii "b"], .dir 0o755), ([ascii "a", ascii "f"], .file 0o644 [1]),
      ([ascii "r", ascii "a"], .link (ascii "b"))]
    succeeds tree [ascii "/b", ascii "/a/f"] = true ∧
      succeeds tree [ascii "/a/f", ascii "/b"] = false := by decide +kernel

-- a directory cannot be made under a path that ends in `.`
example :
    let tree := Tree.ofEntries [([ascii "r"], .dir 0o755), ([ascii "a"], .dir 0o755)]
    succeeds tree [ascii "/a", ascii "/a/."] = true ∧
      succeeds tree [ascii "/a/.", ascii "/a"] = false := by decide +kernel

/-! ## Two orders that agree -/

/-- A directory with two files, and a link to it. -/
def throughLink : Tree := .ofEntries [
  ([ascii "r"], .dir 0o755), ([ascii "d"], .dir 0o755),
  ([ascii "d", ascii "f"], .file 0o644 [1, 2]), ([ascii "d", ascii "g"], .file 0o644 [3]),
  ([ascii "l"], .link (ascii "d"))]

theorem throughLink_plain : NoSpecial throughLink := by
  have hall : ∀ loc ∈ [[], [ascii "r"], [ascii "d"], [ascii "d", ascii "f"],
      [ascii "d", ascii "g"], [ascii "l"]],
      (throughLink.node loc).all (fun n => n.isDir || n.isFile || n.isLink) = true := by
    decide +kernel
  intro loc mode hn
  have hkind := hall loc (Tree.mem_of_ofEntries hn)
  rw [hn] at hkind
  cases hkind

/-- One file directly and one through the link, in both orders: the directory is made by
whichever comes first. -/
theorem throughLink_reordered :
    (∃ fuel fuel' u u', installFiles calm (ascii "/r") fuel [ascii "/d/f", ascii "/l/g"]
          (World.start throughLink ⟨true, true⟩) = some (.ok (), u) ∧
        installFiles calm (ascii "/r") fuel' [ascii "/l/g", ascii "/d/f"]
          (World.start throughLink ⟨true, true⟩) = some (.ok (), u') ∧ Tree.Alike u.tree u'.tree) ∨
      ∃ fuel fuel' e e' u u', installFiles calm (ascii "/r") fuel [ascii "/d/f", ascii "/l/g"]
          (World.start throughLink ⟨true, true⟩) = some (.err e, u) ∧
        installFiles calm (ascii "/r") fuel' [ascii "/l/g", ascii "/d/f"]
          (World.start throughLink ⟨true, true⟩) = some (.err e', u') := by
  have hcomes (files : List OsString) (h : (installFiles calm (ascii "/r") 9 files
      (World.start throughLink ⟨true, true⟩)).isSome = true) : ∃ r u,
        installFiles calm (ascii "/r") 9 files (World.start throughLink ⟨true, true⟩) =
          some (r, u) := by
    obtain ⟨⟨r, u⟩, hrun⟩ := Option.isSome_iff_exists.mp h
    exact ⟨r, u, hrun⟩
  obtain ⟨r, u, hrun⟩ := hcomes [ascii "/d/f", ascii "/l/g"] (by decide +kernel)
  obtain ⟨r', u', hrun'⟩ := hcomes [ascii "/l/g", ascii "/d/f"] (by decide +kernel)
  have hsettled : ∀ c ∈ pendingCalls calm (ascii "/r") 9 [ascii "/d/f", ascii "/l/g"]
      (World.start throughLink ⟨true, true⟩), Settled calm (ascii "/r") c.1 c.2 := by
    decide +kernel
  have hsettled' : ∀ c ∈ pendingCalls calm (ascii "/r") 9 [ascii "/l/g", ascii "/d/f"]
      (World.start throughLink ⟨true, true⟩), Settled calm (ascii "/r") c.1 c.2 := by
    decide +kernel
  refine installFiles_perm (m := .dir 0o755) calm_faultless throughLink_plain (by decide +kernel) ?_
    (List.Perm.swap _ _ _) (fun s u h => hsettled _ (h.mem_pendingCalls hrun))
    (fun s u h => hsettled' _ (h.mem_pendingCalls hrun'))
    (agree_of_pendingCalls hrun hrun' hsettled hsettled' (by decide +kernel) (by decide +kernel))
  intro file hfile
  rw [List.mem_cons, List.mem_singleton] at hfile
  rcases hfile with rfl | rfl
  · exact ⟨.file 0o644 [1, 2], by decide +kernel⟩
  · exact ⟨.file 0o644 [3], by decide +kernel⟩

/-! ## Orders that do not agree -/

/-- Below the destination `e` is a link to `d`. -/
def crossed : Tree := .ofEntries [
  ([ascii "r"], .dir 0o755), ([ascii "d"], .dir 0o755), ([ascii "e"], .dir 0o755),
  ([ascii "r", ascii "d"], .dir 0o755), ([ascii "r", ascii "e"], .link (ascii "d")),
  ([ascii "d", ascii "f"], .file 0o644 [1]), ([ascii "e", ascii "f"], .file 0o644 [2])]

theorem crossed_plain : NoSpecial crossed := by
  have hall : ∀ loc ∈ [[], [ascii "r"], [ascii "d"], [ascii "e"], [ascii "r", ascii "d"],
      [ascii "r", ascii "e"], [ascii "d", ascii "f"], [ascii "e", ascii "f"]],
      (crossed.node loc).all (fun n => n.isDir || n.isFile || n.isLink) = true := by decide +kernel
  intro loc mode hn
  have hkind := hall loc (Tree.mem_of_ofEntries hn)
  rw [hn] at hkind
  cases hkind

/-- What is at the two targets in the end, by the order. -/
theorem crossed_ends (files : List OsString) (content : List UInt8)
    (h : ((installFiles calm (ascii "/r") 9 files (World.start crossed ⟨true, true⟩)).any fun out =>
      decide (out.1 = .ok ()) &&
        decide ((out.2.tree.node [ascii "r", ascii "d", ascii "f"]).map Node.content =
          some content)) = true) :
    ∃ w, installFiles calm (ascii "/r") 9 files (World.start crossed ⟨true, true⟩) =
      some (.ok (), w) ∧
        (w.tree.node [ascii "r", ascii "d", ascii "f"]).map Node.content = some content := by
  obtain ⟨⟨r, w⟩, hrun, hends⟩ := (Option.any_eq_true _ _).mp h
  obtain ⟨hr, hcontent⟩ := Bool.and_eq_true_iff.mp hends
  obtain rfl : r = .ok () := of_decide_eq_true hr
  exact ⟨w, hrun, of_decide_eq_true hcontent⟩

/-- The first of `/d/f` and `/e/f` is the one that is copied. -/
theorem crossed_differs :
    ¬ ∀ (env : Env) (root : OsString) (files files' : List OsString) (w : World) (m : Node),
      env.Faultless → NoSpecial w.tree → w.tree.status env.view true root = .ok m →
      (∀ file ∈ files, ∃ n, w.tree.status env.view true file = .ok n) →
      files.Perm files' →
      (∃ fuel fuel' u u', installFiles env root fuel files w = some (.ok (), u) ∧
          installFiles env root fuel' files' w = some (.ok (), u') ∧ Tree.Alike u.tree u'.tree) ∨
        ∃ fuel fuel' e e' u u', installFiles env root fuel files w = some (.err e, u) ∧
          installFiles env root fuel' files' w = some (.err e', u') := by
  intro h
  obtain ⟨u, hrun, hone⟩ := crossed_ends [ascii "/d/f", ascii "/e/f"] [1]
    (by decide +kernel)
  obtain ⟨u', hrun', htwo⟩ := crossed_ends [ascii "/e/f", ascii "/d/f"] [2]
    (by decide +kernel)
  have hfiles : ∀ file ∈ [ascii "/d/f", ascii "/e/f"],
      ∃ n, crossed.status calm.view true file = .ok n := by
    intro file hfile
    rw [List.mem_cons, List.mem_singleton] at hfile
    rcases hfile with rfl | rfl
    · exact ⟨.file 0o644 [1], by decide +kernel⟩
    · exact ⟨.file 0o644 [2], by decide +kernel⟩
  rcases h calm (ascii "/r") [ascii "/d/f", ascii "/e/f"] [ascii "/e/f", ascii "/d/f"]
      (World.start crossed ⟨true, true⟩) (.dir 0o755) calm_faultless crossed_plain
      (by decide +kernel) hfiles (List.Perm.swap _ _ _) with
    ⟨_, _, u₁, u₂, h₁, h₂, halike⟩ | ⟨_, _, _, _, _, _, h₁, _⟩
  · obtain rfl := (Prod.mk.inj (installFiles_agree hrun h₁)).2
    obtain rfl := (Prod.mk.inj (installFiles_agree hrun' h₂)).2
    obtain ⟨n, hn, hcontent⟩ := Option.map_eq_some_iff.mp hone
    obtain ⟨n', hn', hlike⟩ := halike.forth _ n hn
    rw [hn', Option.map_some] at htwo
    have hsame : n'.content = n.content := by
      cases n with
      | file mode content =>
          cases n' with
          | file mode' content' => exact (Node.file.inj hlike).2.symm
          | dir mode' => cases hlike
          | link text => cases hlike
          | special mode' => cases hlike
      | dir mode => cases hcontent
      | link text => cases hcontent
      | special mode => cases hcontent
    rw [hsame, hcontent] at htwo
    cases htwo
  · cases (Prod.mk.inj (installFiles_agree hrun h₁)).1

end Sample

end File
end DracutInstall

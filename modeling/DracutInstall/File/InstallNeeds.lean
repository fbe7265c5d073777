/-
A run of `install_files` makes nothing but what its files need.

A path needs its parent and, if it is a link, what the link leads to.  Whatever a
run ends in, each thing it has made is the target of a path that one of the files
needs, and is of the kind of that path; the text of a link is what `convert_abs_rel`
gives for its target and the target of what the link leads to, and that target is
there.
-/
import DracutInstall.File.InstallAgain

namespace DracutInstall
namespace File

open ByteCodec Rust Process UnixPath FileTree

variable {env : Env} {root source target dir text p q : OsString} {fuel : Nat} {t t' : Tree}
  {v : Tree.View} {n : Node} {m : Made}

/-! ## What a path needs -/

inductive Needs (v : Tree.View) (t : Tree) : OsString → OsString → Prop
  | self (p : OsString) : Needs v t p p
  | parent {p d q : OsString} (hparent : UnixPath.parent p = some d) (h : Needs v t d q) : Needs v t p q
  | link {p text q : OsString} (hlink : t.status v false p = .ok (.link text))
      (h : Needs v t (linkPath p text) q) : Needs v t p q

/-- The target of the path is there; the root of the tree has none. -/
def TargetThere (v : Tree.View) (root : OsString) (t : Tree) (p : OsString) : Prop :=
  parent p = none ∨ ∃ n, t.status v false (targetOf root p) = .ok n

/-- What is made for a path.  A link is made where what it leads to is there. -/
inductive MadeFor (v : Tree.View) (root : OsString) (t : Tree) (p : OsString) : Made → Prop
  | dir {n : Node} (hstatus : t.status v false p = .ok n) (hdir : n.isDir = true) :
      MadeFor v root t p (.dir (targetOf root p))
  | file {n : Node} (hstatus : t.status v false p = .ok n) (hfile : n.isFile = true) :
      MadeFor v root t p (.file (targetOf root p))
  | link {text rel : OsString} (hstatus : t.status v false p = .ok (.link text))
      (hrel : convertAbsRel (targetOf root (linkPath p text)) (targetOf root p) = some rel)
      (hleads : TargetThere v root t (linkPath p text)) :
      MadeFor v root t p (.link rel (targetOf root p))

theorem status_link_keepsKinds (hkeeps : Tree.KeepsKinds t t')
    (h : t.status v false p = .ok (.link text)) : t'.status v false p = .ok (.link text) := by
  obtain ⟨n, hn, hkind⟩ := Tree.status_keepsKinds hkeeps h
  rw [hn, (hkind.2.2 text).mp rfl]

theorem TargetThere.keepsKinds (hkeeps : Tree.KeepsKinds t t') (h : TargetThere v root t p) :
    TargetThere v root t' p := by
  rcases h with htop | ⟨n, hn⟩
  · exact .inl htop
  · obtain ⟨n', hn', _⟩ := Tree.status_keepsKinds hkeeps hn
    exact .inr ⟨n', hn'⟩

theorem Needs.keepsKinds (hkeeps : Tree.KeepsKinds t t') (h : Needs v t p q) : Needs v t' p q := by
  induction h with
  | self p => exact .self p
  | parent hparent _ ih => exact .parent hparent ih
  | link hlink _ ih => exact .link (status_link_keepsKinds hkeeps hlink) ih

theorem MadeFor.keepsKinds (hkeeps : Tree.KeepsKinds t t') (h : MadeFor v root t p m) :
    MadeFor v root t' p m := by
  cases h with
  | dir hstatus hdir =>
      obtain ⟨n', hn', hkind⟩ := Tree.status_keepsKinds hkeeps hstatus
      exact .dir hn' (hkind.1.trans hdir)
  | file hstatus hfile =>
      obtain ⟨n', hn', hkind⟩ := Tree.status_keepsKinds hkeeps hstatus
      exact .file hn' (hkind.2.1.trans hfile)
  | link hstatus hrel hleads =>
      exact .link (status_link_keepsKinds hkeeps hstatus) hrel (hleads.keepsKinds hkeeps)

/-- Something is made for a path that another one needs. -/
def MadeNeeded (v : Tree.View) (root : OsString) (t : Tree) (source : OsString) (m : Made) : Prop :=
  ∃ p, Needs v t source p ∧ MadeFor v root t p m

theorem MadeNeeded.keepsKinds (hkeeps : Tree.KeepsKinds t t') (h : MadeNeeded v root t source m) :
    MadeNeeded v root t' source m := by
  obtain ⟨p, hneeds, hmade⟩ := h
  exact ⟨p, hneeds.keepsKinds hkeeps, hmade.keepsKinds hkeeps⟩

/-! ## What a part of a run adds -/

/-- From one world to the other, entries keep their kinds and only what is needed is made. -/
structure Adds (env : Env) (root source : OsString) (w w' : World) : Prop where
  keeps : Tree.KeepsKinds w.tree w'.tree
  made : ∃ new, w'.made = w.made ++ new ∧ ∀ m ∈ new, MadeNeeded env.view root w'.tree source m

namespace Adds

variable {w w₁ w' : World}

theorem quiet (hkeeps : Tree.KeepsKinds w.tree w'.tree) (hmade : w'.made = w.made) :
    Adds env root source w w' :=
  ⟨hkeeps, [], by rw [hmade, List.append_nil], fun m hm => nomatch hm⟩

theorem trans (h : Adds env root source w w₁) (h' : Adds env root source w₁ w') :
    Adds env root source w w' := by
  obtain ⟨new, hnew, hneeded⟩ := h.made
  obtain ⟨new', hnew', hneeded'⟩ := h'.made
  refine ⟨h.keeps.trans h'.keeps, new ++ new', ?_, fun m hm => ?_⟩
  · rw [hnew', hnew, List.append_assoc]
  · rcases List.mem_append.mp hm with hm | hm
    · exact (hneeded m hm).keepsKinds h'.keeps
    · exact hneeded' m hm

theorem ofParent (hparent : parent source = some dir) (h : Adds env root dir w w') :
    Adds env root source w w' := by
  obtain ⟨new, hnew, hneeded⟩ := h.made
  refine ⟨h.keeps, new, hnew, fun m hm => ?_⟩
  obtain ⟨p, hneeds, hmade⟩ := hneeded m hm
  exact ⟨p, .parent hparent hneeds, hmade⟩

theorem ofLink (hlink : w.tree.status env.view false source = .ok (.link text))
    (h : Adds env root (linkPath source text) w w') : Adds env root source w w' := by
  obtain ⟨new, hnew, hneeded⟩ := h.made
  refine ⟨h.keeps, new, hnew, fun m hm => ?_⟩
  obtain ⟨p, hneeds, hmade⟩ := hneeded m hm
  exact ⟨p, .link (status_link_keepsKinds h.keeps hlink) hneeds, hmade⟩

theorem single (hkeeps : Tree.KeepsKinds w.tree w'.tree) (hmade : w'.made = w.made ++ [m])
    (hfor : MadeFor env.view root w.tree source m) : Adds env root source w w' := by
  refine ⟨hkeeps, [m], hmade, fun m' hm' => ?_⟩
  rw [List.mem_singleton.mp hm']
  exact ⟨source, .self source, hfor.keepsKinds hkeeps⟩

end Adds

/-! ## The calls -/

theorem call_made {α : Type} {made : List Made} {f : Tree → Except Errno (α × Tree)} {w w' : World}
    {r : Outcome CloneError (Except Errno α)} (h : call env made f w = some (r, w')) :
    (w'.tree = w.tree ∧ w'.made = w.made) ∨
      ∃ a, f w.tree = .ok (a, w'.tree) ∧ w'.made = w.made ++ made := by
  rw [call] at h
  split at h
  · cases h
    exact .inl ⟨rfl, rfl⟩
  · split at h
    · cases h
      exact .inl ⟨rfl, rfl⟩
    · rename_i a tree hf
      cases h
      exact .inr ⟨a, hf, rfl⟩

theorem change_adds {made : Made} {f : Tree → Except Errno Tree} {w w' : World}
    {r : Outcome CloneError (Except Errno Unit)} (h : change env [made] f w = some (r, w'))
    (hkeeps : Tree.KeepsKinds w.tree w'.tree) (hfor : MadeFor env.view root w.tree source made) :
    Adds env root source w w' := by
  rcases call_made h with ⟨_, hmade⟩ | ⟨_, _, hmade⟩
  · exact .quiet hkeeps hmade
  · exact .single hkeeps hmade hfor

/-- Nothing is made, and entries keep their kinds. -/
def Quiet (w w' : World) : Prop := w'.made = w.made ∧ Tree.KeepsKinds w.tree w'.tree

theorem quiet_harmless (env : Env) (w : World) : Harmless env (Quiet w) where
  ask f v r v' hv h := by
    have htree := ask_extends h
    rcases call_made h with ⟨_, hmade⟩ | ⟨_, _, hmade⟩
    · exact ⟨hmade.trans hv.1, htree ▸ hv.2⟩
    · rw [List.append_nil] at hmade
      exact ⟨hmade.trans hv.1, htree ▸ hv.2⟩
  setPermissions q mode v r v' hv h := by
    have hkeeps := (keepsKinds_undisturbed w.tree).setPermissions q mode v r v' hv.2 h
    rw [setPermissions, change] at h
    rcases call_made h with ⟨_, hmade⟩ | ⟨_, _, hmade⟩
    · exact ⟨hmade.trans hv.1, hkeeps⟩
    · rw [List.append_nil] at hmade
      exact ⟨hmade.trans hv.1, hkeeps⟩

theorem Quiet.refl (w : World) : Quiet w w := ⟨rfl, .refl _⟩

theorem Quiet.trans {w w₁ w' : World} (h : Quiet w w₁) (h' : Quiet w₁ w') : Quiet w w' :=
  ⟨h'.1.trans h.1, h.2.trans h'.2⟩

theorem Quiet.line (w : World) (l : Line) : Quiet w (w.line l) := ⟨rfl, .refl _⟩

theorem Quiet.adds {w w' : World} (h : Quiet w w') : Adds env root source w w' := .quiet h.2 h.1

/-- The calls of `clone_path` by itself add what they need, and one that ends well leaves
its target there. -/
structure AddsCall (env : Env) (root : OsString) (clone : OsString → Run Unit) : Prop where
  adds : ∀ {source w r w'}, clone source w = some (r, w') → Adds env root source w w'
  target : ∀ {source w w'}, clone source w = some (.ok (), w') →
    TargetThere env.view root w'.tree source

section Step

variable {clone : OsString → Run Unit} {w before after w₁ w₂ w' : World}
  {relaxed : Option (OsString × Nat)}

theorem Missing.quiet (h : Missing env root source w w₁) : Quiet w w₁ := by
  obtain ⟨e, hask⟩ := h
  exact (quiet_harmless env w).ask _ (w.line _) _ _ (.refl w) hask

theorem AtEntry.adds (hclone : AddsCall env root clone)
    (h : AtEntry env root clone source w n before relaxed after) :
    Adds env root source w after ∧
      ∃ n', after.tree.status env.view false source = .ok n' ∧ n.SameKind n' := by
  cases h with
  | @intro dir w₁ w₂ hmissing hparent hrun hstatus hrelax =>
      have hquiet : Quiet w₂ after := by
        have hbefore := (quiet_harmless env w₂).ask _ _ _ _ (.refl w₂) hstatus
        exact (quiet_harmless env w₂).relax _ _ _ _ hbefore hrelax
      obtain ⟨hsame, hfound⟩ := ask_ok hstatus
      have hn := hfound n rfl
      refine ⟨hmissing.quiet.adds.trans ((hclone.adds hrun).ofParent hparent |>.trans hquiet.adds), ?_⟩
      exact Tree.status_keepsKinds hquiet.2 hn

theorem copyFile_made {r : Outcome CloneError (Except CopyError Unit)}
    (h : copyFile env fuel source target w = some (r, w')) :
    w'.made = w.made ∨ w'.made = w.made ++ [.file target] := by
  rw [copyFile] at h
  dsimp only at h
  split at h
  · cases h
  · split at h
    · cases h
      exact .inr rfl
    · cases h
      exact .inl rfl

theorem lnR_adds {r : Outcome CloneError (Except CloneError Unit)}
    (hstatus : w.tree.status env.view false source = .ok (.link text))
    (hleads : TargetThere env.view root w.tree (linkPath source text))
    (h : lnR env (targetOf root (linkPath source text)) (targetOf root source) w = some (r, w')) :
    Adds env root source w w' := by
  rw [lnR] at h
  cases hrel : convertAbsRel (targetOf root (linkPath source text)) (targetOf root source) with
  | none =>
      rw [hrel] at h
      rw [(pure_eq_some.mp h).2]
      exact (Quiet.refl w).adds
  | some rel =>
      rw [hrel] at h
      obtain ⟨a, w₁, hsym, hrest⟩ := change_bind h
      rw [(pure_eq_some.mp hrest).2]
      have hkeeps := (keepsKinds_undisturbed w.tree).symlink _ _ _ _ _ (.refl _) hsym
      exact change_adds hsym hkeeps (.link hstatus hrel hleads)

theorem EntryEnds.adds {r : Outcome CloneError (Except CloneError Unit)} {n' : Node}
    (hclone : AddsCall env root clone)
    (hstatus : w.tree.status env.view false source = .ok n') (hkind : n.SameKind n')
    (h : EntryEnds env root clone fuel source (targetOf root source) n w r w') :
    Adds env root source w w' := by
  have hread {text : OsString} {w₁ : World}
      (hask : readLink env source w = some (.ok (.ok text), w₁)) :
      Quiet w w₁ ∧ w₁.tree.status env.view false source = .ok (.link text) := by
    obtain ⟨hsame, hfound⟩ := ask_ok hask
    refine ⟨(quiet_harmless env w).ask _ _ _ _ (.refl w) hask, ?_⟩
    rw [hsame.tree]
    exact Tree.readLink_ok (hfound text rfl)
  cases h with
  | unread _ hask => exact ((quiet_harmless env w).ask _ _ _ _ (.refl w) hask).adds
  | failed _ hask hrun =>
      obtain ⟨hquiet, hlink⟩ := hread hask
      exact hquiet.adds.trans ((hclone.adds hrun).ofLink hlink)
  | unwound _ hask hrun =>
      obtain ⟨hquiet, hlink⟩ := hread hask
      exact hquiet.adds.trans ((hclone.adds hrun).ofLink hlink)
  | @link text ret w₁ w₂ _ _ hask hrun hmade =>
      obtain ⟨hquiet, hlink⟩ := hread hask
      have hadds := hclone.adds hrun
      have hlater := status_link_keepsKinds hadds.keeps hlink
      have hlines := (Quiet.line w₂ (.clonePathSymlink (linkPath source text) (targetOf root source))).trans
        (Quiet.line _ (.lnRSymlink (targetOf root (linkPath source text)) (targetOf root source)))
      have hends : Adds env root source w w₂ := hquiet.adds.trans (hadds.ofLink hlink)
      have hleads : TargetThere env.view root w₂.tree (linkPath source text) := hclone.target hrun
      exact hends.trans (hlines.adds.trans (lnR_adds hlater hleads hmade))
  | @dir ret w₁ _ hlink hdir hmade =>
      obtain ⟨hsame, hfound⟩ := isDir_ok hdir
      obtain ⟨d, hd, hisDir⟩ := hfound rfl
      obtain rfl := Tree.status_unique hstatus (hkind.isLink.trans hlink) hd
      have hquiet := (quiet_harmless env w).isDir _ _ _ _ (.refl w) hdir
      have hline := Quiet.line w₁ (.clonePathMkdir source (targetOf root source))
      have hkeeps := (keepsKinds_undisturbed w₁.tree).createDir _ _ (w₁.line _) _ _ (.refl _) hmade
      refine hquiet.adds.trans (hline.adds.trans (change_adds hmade hkeeps (.dir ?_ hisDir)))
      show w₁.tree.status env.view false source = .ok d
      rw [hsame.tree]
      exact hstatus
  | @file ret w₁ w₂ _ hlink hdir hfile hcopy =>
      obtain ⟨hsame₁, _⟩ := isDir_ok hdir
      obtain ⟨hsame₂, hfound⟩ := isFile_ok hfile
      obtain ⟨d, hd, hisFile⟩ := hfound rfl
      rw [hsame₁.tree] at hd
      obtain rfl := Tree.status_unique hstatus (hkind.isLink.trans hlink) hd
      have hquiet₁ := (quiet_harmless env w).isDir _ _ _ _ (.refl w) hdir
      have hquiet : Quiet w w₂ := (quiet_harmless env w).isFile _ _ _ _ hquiet₁ hfile
      have hkeeps := copyFile_keepsKinds hcopy
      have hline := Quiet.line w₂ (.clonePathCopy source (targetOf root source))
      apply hquiet.adds.trans
      apply hline.adds.trans
      rcases copyFile_made hcopy with hmade | hmade
      · exact .quiet hkeeps hmade
      · refine .single hkeeps hmade (.file ?_ hisFile)
        show w₂.tree.status env.view false source = .ok d
        rw [hsame₂.tree, hsame₁.tree]
        exact hstatus
  | @other w₁ _ hlink hdir hfile =>
      have hquiet₁ := (quiet_harmless env w).isDir _ _ _ _ (.refl w) hdir
      exact Quiet.adds ((quiet_harmless env w).isFile _ _ _ _ hquiet₁ hfile)

theorem AtEntry.adds_ends {r : Outcome CloneError (Except CloneError Unit)}
    (hclone : AddsCall env root clone)
    (hentry : AtEntry env root clone source w n before relaxed after)
    (hends : EntryEnds env root clone fuel source (targetOf root source) n after r w') :
    Adds env root source w w' := by
  obtain ⟨hadds, n', hstatus, hkind⟩ := hentry.adds hclone
  exact hadds.trans (hends.adds hclone hstatus hkind)

theorem StepEnds.adds {r : Outcome CloneError Unit} (hclone : AddsCall env root clone)
    (h : StepEnds env root clone fuel source w r w') : Adds env root source w w' := by
  cases h with
  | found hfound => exact Quiet.adds ((quiet_harmless env w).ask _ (w.line _) _ _ (.refl w) hfound)
  | top hmissing _ => exact hmissing.quiet.adds
  | parentFailed hmissing hparent hrun =>
      exact hmissing.quiet.adds.trans ((hclone.adds hrun).ofParent hparent)
  | parentUnwound hmissing hparent hrun =>
      exact hmissing.quiet.adds.trans ((hclone.adds hrun).ofParent hparent)
  | @noSource dir e w₁ w₂ _ hmissing hparent hrun hstatus =>
      have hasked : Quiet w₂ w' := (quiet_harmless env w₂).ask _ _ _ _ (.refl w₂) hstatus
      exact hmissing.quiet.adds.trans (((hclone.adds hrun).ofParent hparent).trans hasked.adds)
  | @notRelaxed dir n e w₁ w₂ w₃ _ hmissing hparent hrun hstatus hrelax =>
      have hasked := (quiet_harmless env w₂).ask _ _ _ _ (.refl w₂) hstatus
      have hrelaxed : Quiet w₂ w' := (quiet_harmless env w₂).relax _ _ _ _ hasked hrelax
      exact hmissing.quiet.adds.trans (((hclone.adds hrun).ofParent hparent).trans hrelaxed.adds)
  | left hentry hends => exact hentry.adds_ends hclone hends
  | unwound hentry hends => exact hentry.adds_ends hclone hends
  | @notRestored n before relaxed after ret e w₁ _ hentry hends hrestore =>
      have hrestored := (quiet_harmless env w₁).restore _ _ _ _ (.refl w₁) hrestore
      exact (hentry.adds_ends hclone hends).trans hrestored.adds
  | @done n before relaxed after ret w₁ _ hentry hends hrestore =>
      have hrestored := (quiet_harmless env w₁).restore _ _ _ _ (.refl w₁) hrestore
      exact (hentry.adds_ends hclone hends).trans hrestored.adds

end Step

theorem clonePath_adds (env : Env) (root : OsString) (fuel : Nat) :
    AddsCall env root (clonePath env root fuel) := by
  have htarget {fuel : Nat} {source : OsString} {w w' : World}
      (h : clonePath env root fuel source w = some (.ok (), w')) :
      TargetThere env.view root w'.tree source := by
    by_cases hparent : parent source = none
    · exact .inl hparent
    · exact .inr (clonePath_target hparent h)
  induction fuel with
  | zero => exact ⟨nofun, htarget⟩
  | succ fuel ih => exact ⟨fun h => (cloneStep_ends h).adds ih, htarget⟩

/-- What a run makes comes behind what had been made before, and is needed. -/
theorem installFiles_adds {files : List OsString} {w w' : World} {r : Outcome CloneError Unit}
    (h : installFiles env root fuel files w = some (r, w')) :
    ∃ new, w'.made = w.made ++ new ∧ ∀ m ∈ new, ∃ file ∈ files, ∃ p,
      Needs env.view w'.tree file p ∧ MadeFor env.view root w'.tree p m := by
  induction files generalizing w with
  | nil =>
      rw [(pure_eq_some.mp h).2]
      exact ⟨[], (List.append_nil _).symm, fun m hm => nomatch hm⟩
  | cons file files ih =>
      have hfirst {u : World} {r₁ : Outcome CloneError Unit}
          (hclone : clonePath env root fuel file w = some (r₁, u)) :
          ∃ new, u.made = w.made ++ new ∧ ∀ m ∈ new, ∃ f ∈ file :: files, ∃ p,
            Needs env.view u.tree f p ∧ MadeFor env.view root u.tree p m := by
        obtain ⟨new, hnew, hneeded⟩ := ((clonePath_adds env root fuel).adds hclone).made
        exact ⟨new, hnew, fun m hm => ⟨file, List.mem_cons_self, hneeded m hm⟩⟩
      rcases installFiles_cons h with ⟨w₁, hclone, hrest⟩ | ⟨e, hclone, _⟩ | ⟨hclone, _⟩
      · obtain ⟨new, hnew, hneeded⟩ := hfirst hclone
        obtain ⟨new', hnew', hneeded'⟩ := ih hrest
        have hkeeps := installFiles_keepsKinds hrest
        refine ⟨new ++ new', by rw [hnew', hnew, List.append_assoc], fun m hm => ?_⟩
        rcases List.mem_append.mp hm with hm | hm
        · obtain ⟨f, hf, p, hneeds, hmade⟩ := hneeded m hm
          exact ⟨f, hf, p, hneeds.keepsKinds hkeeps, hmade.keepsKinds hkeeps⟩
        · obtain ⟨f, hf, hp⟩ := hneeded' m hm
          exact ⟨f, List.mem_cons_of_mem _ hf, hp⟩
      · exact hfirst hclone
      · exact hfirst hclone

/-! ## What has been made stays -/

/-- What has been made is there, as it was made. -/
def Made.Present (v : Tree.View) (t : Tree) : Made → Prop
  | .dir p => ∃ n, t.status v true p = .ok n ∧ n.isDir = true
  | .file p => ∃ n, t.status v true p = .ok n ∧ n.isDir = false
  | .link text p => t.status v false p = .ok (.link text)

theorem Made.Present.keepsKinds (hkeeps : Tree.KeepsKinds t t') (h : m.Present v t) :
    m.Present v t' := by
  cases m with
  | dir p =>
      obtain ⟨n, hn, hdir⟩ := h
      obtain ⟨n', hn', hkind⟩ := Tree.status_keepsKinds hkeeps hn
      exact ⟨n', hn', hkind.1.trans hdir⟩
  | file p =>
      obtain ⟨n, hn, hdir⟩ := h
      obtain ⟨n', hn', hkind⟩ := Tree.status_keepsKinds hkeeps hn
      exact ⟨n', hn', hkind.1.trans hdir⟩
  | link text p => exact status_link_keepsKinds hkeeps h

/-- Everything that has been made is there. -/
def AllPresent (v : Tree.View) (w : World) : Prop := ∀ m ∈ w.made, m.Present v w.tree

section Stays

variable {w w' : World}

theorem AllPresent.quiet (h : AllPresent v w) (hquiet : Quiet w w') : AllPresent v w' := by
  intro m hm
  rw [hquiet.1] at hm
  exact (h m hm).keepsKinds hquiet.2

theorem AllPresent.made (h : AllPresent v w) (hkeeps : Tree.KeepsKinds w.tree w'.tree)
    (hmade : w'.made = w.made ++ [m]) (hm : m.Present v w'.tree) : AllPresent v w' := by
  intro x hx
  rw [hmade] at hx
  rcases List.mem_append.mp hx with hx | hx
  · exact (h x hx).keepsKinds hkeeps
  · rw [List.mem_singleton.mp hx]
    exact hm

theorem AllPresent.change {f : Tree → Except Errno Tree}
    {r : Outcome CloneError (Except Errno Unit)} (hw : AllPresent v w)
    (h : change env [m] f w = some (r, w')) (hkeeps : Tree.KeepsKinds w.tree w'.tree)
    (hm : ∀ t, f w.tree = .ok t → m.Present v t) : AllPresent v w' := by
  rcases call_made h with ⟨_, hmade⟩ | ⟨a, hf, hmade⟩
  · exact hw.quiet ⟨hmade, hkeeps⟩
  · refine hw.made hkeeps hmade (hm _ ?_)
    cases hft : f w.tree with
    | error e =>
        rw [hft] at hf
        cases hf
    | ok t =>
        rw [hft] at hf
        cases hf
        rfl

theorem allPresent_undisturbed : Undisturbed env (AllPresent env.view) where
  ask f w r w' hw h := hw.quiet ((quiet_harmless env w).ask f w r w' (.refl w) h)
  setPermissions p mode w r w' hw h :=
    hw.quiet ((quiet_harmless env w).setPermissions p mode w r w' (.refl w) h)
  line w l hw := hw.quiet (.line w l)
  createDir p mode w r w' hw h := by
    have hkeeps := (keepsKinds_undisturbed w.tree).createDir p mode w r w' (.refl _) h
    exact hw.change h hkeeps fun t ht => ⟨_, mkdir_status ht, rfl⟩
  symlink text p w r w' hw h := by
    have hkeeps := (keepsKinds_undisturbed w.tree).symlink text p w r w' (.refl _) h
    exact hw.change h hkeeps fun t ht => symlink_status ht

theorem AllPresent.copyFile {ret : Except CopyError Unit} (hw : AllPresent env.view w)
    (h : copyFile env fuel source target w = some (.ok ret, w')) : AllPresent env.view w' := by
  have hkeeps := copyFile_keepsKinds h
  rcases copyFile_opened h with ⟨hmade, _⟩ | ⟨hmade, hfound⟩
  · exact hw.quiet ⟨hmade, hkeeps⟩
  · exact hw.made hkeeps hmade hfound

theorem AllPresent.installFiles {files : List OsString} {r : Outcome CloneError Unit}
    (hw : AllPresent env.view w) (h : installFiles env root fuel files w = some (r, w')) :
    AllPresent env.view w' := by
  induction files generalizing w with
  | nil =>
      rw [(pure_eq_some.mp h).2]
      exact hw
  | cons file files ih =>
      have hclone {u : World} {r₁ : Outcome CloneError Unit}
          (hrun : clonePath env root fuel file w = some (r₁, u)) : AllPresent env.view u :=
        allPresent_undisturbed.clonePath (fun _ _ _ _ _ _ _ _ hu hcopy => hu.copyFile hcopy) hrun hw
      rcases installFiles_cons h with ⟨w₁, hrun, hrest⟩ | ⟨e, hrun, _⟩ | ⟨hrun, _⟩
      · exact ih (hclone hrun) hrest
      · exact hclone hrun
      · exact hclone hrun

end Stays

/-- Of a process that has made nothing yet, what it makes is there at the end, and for one
of the files. -/
theorem installFiles_made {files : List OsString} {S : Tree} {flags : Flags} {w' : World}
    {r : Outcome CloneError Unit}
    (h : installFiles env root fuel files (World.start S flags) = some (r, w')) {m : Made}
    (hm : m ∈ w'.made) : m.Present env.view w'.tree ∧
      ∃ file ∈ files, ∃ p, Needs env.view w'.tree file p ∧ MadeFor env.view root w'.tree p m := by
  have hstart : AllPresent env.view (World.start S flags) := fun m hm => absurd hm List.not_mem_nil
  obtain ⟨new, hnew, hneeded⟩ := installFiles_adds h
  have hmade : w'.made = new := hnew
  exact ⟨hstart.installFiles h m hm, hneeded m (hmade ▸ hm)⟩

/-- Whatever a process ends in and its calls were answered: each thing it has made is
there, as it was made, and is the target of a path that one of the files needs, of the
kind of that path. -/
theorem installFiles_needed {files : List OsString} {S : Tree} {flags : Flags} {w' : World}
    {r : Outcome CloneError Unit}
    (h : installFiles env root fuel files (World.start S flags) = some (r, w')) :
    ∀ m ∈ w'.made, m.Present env.view w'.tree ∧
      ∃ file ∈ files, ∃ p, Needs env.view w'.tree file p ∧ MadeFor env.view root w'.tree p m :=
  fun _ hm => installFiles_made h hm

theorem linked_needed :
    ∃ w, installFiles Sample.calm (ascii "/r") 9 [ascii "/l"] (World.start Sample.linked ⟨true, true⟩) =
        some (.ok (), w) ∧ w.made = [.file (ascii "/r/f"), .link (ascii "f") (ascii "/r/l")] ∧
      ∀ m ∈ w.made, m.Present Sample.calm.view w.tree ∧ ∃ file ∈ [ascii "/l"], ∃ p,
        Needs Sample.calm.view w.tree file p ∧ MadeFor Sample.calm.view (ascii "/r") w.tree p m := by
  obtain ⟨w, hrun, hmade⟩ : ∃ w, installFiles Sample.calm (ascii "/r") 9 [ascii "/l"]
        (World.start Sample.linked ⟨true, true⟩) = some (.ok (), w) ∧
      w.made = [.file (ascii "/r/f"), .link (ascii "f") (ascii "/r/l")] :=
    exists_ok_of_any (by decide +kernel)
  exact ⟨w, hrun, hmade, installFiles_needed hrun⟩

end File
end DracutInstall

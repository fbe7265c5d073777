/-
What has been cloned, seen with the destination as the root.

An image is used with its directory as the root of the file system.  Its links are
relative and their `..` stay inside it (`StepOk.linksStay`), so that a path which was
asked for leads, in the tree below the destination, to the very place it leads to on
the host, and to an entry of its kind and content.
-/
import DracutInstall.Lib.TreeBelow
import DracutInstall.File.CloneTree
import DracutInstall.File.CloneFaithful

namespace DracutInstall
namespace File

open ByteCodec Rust Process UnixPath FileTree Tree

variable {env : Env} {root source dir : OsString} {S C : Tree} {R : Loc}

/-! ## Links that stay -/

/-- A made link stays: it goes up to where the two paths part, and down from there. -/
theorem link_stays (hrooted : hasRoot root = true) (hsource : Sound S source)
    {path rel : OsString} {d y : Loc} (hpath : Sound S path) (hlink : LinkSound S source path)
    (hparent : parent source = some dir) (hd : Walks S true false [] (body dir) d)
    (hleads : Walks S true false [] (body path) y)
    (hrel : convertAbsRel (targetOf root path) (targetOf root source) = some rel)
    (hne : rel ≠ []) :
    hasRoot rel = false ∧ StaysBelow S d (steps rel) ∧ Walks S true false d (steps rel) y := by
  obtain ⟨hroot, c, u, v, m, us, rfl, _, _, hv, _, hm, hsteps⟩ :=
    hlink.text (ne_nil_of_hasRoot hrooted) hsource hpath hparent hd hrel hne
  have hdirS : S.isDir (m ++ us) = true := by
    obtain ⟨_, last, hlast⟩ := parent_eq_some hsource.absolute hparent
    obtain ⟨z, hz⟩ := hsource.leads
    have hall := leads_body hz
    rw [hlast] at hall
    obtain ⟨d', hd', hone⟩ := hall.cut
    obtain rfl := hd.unique hd'
    exact isDir_of_walks hone (List.cons_ne_nil _ _)
  have hup : Walks S true false (m ++ us) (List.replicate us.length .parentDir) m :=
    Walks.climb us hdirS
  have hstays := hpath.stays
  rw [hv] at hstays hleads
  obtain ⟨mid, hc, hdown⟩ := hleads.cut
  obtain rfl := hm.unique hc
  rw [hsteps]
  exact ⟨hroot, (staysBelow_climb us).append hup (hstays.behind hm), hup.trans hdown⟩

/-- What is asked of the calls of `clone_path` by itself. -/
def Stays (S : Tree) (R : Loc) (clone : OsString → Run Unit) : Prop :=
  ∀ source w w', Mirror S w.tree R → LinksStay S w.tree R → clone source w = some (.ok (), w') →
    SoundLog S w'.log → LinksStay S w'.tree R

section Calls

variable {clone : OsString → Run Unit} {fuel : Nat} {n : Node} {w w' : World}

theorem linksStay_link (hs : Setting env root S R) (hclone : Mirrors root S R clone)
    (hstays : Stays S R clone) (hr : Prepared S R source dir w.tree)
    (hlinks : LinksStay S w.tree R) {text rel : OsString} {w₁ w₂ : World}
    (hread : w.tree.readLink env.view source = .ok text) (hsame : World.Same w w₁)
    (hrun : clone (linkPath source text) w₁ = some (.ok (), w₂))
    (hrel : convertAbsRel (targetOf root (linkPath source text)) (targetOf root source) = some rel)
    (hmade : w₂.tree.symlink env.view rel (targetOf root source) = .ok w'.tree)
    (hlog : SoundLog S w₂.log) (hpath : Sound S (linkPath source text))
    (hlink : LinkSound S source (linkPath source text)) : LinksStay S w'.tree R := by
  have hmirror₁ : Mirror S w₁.tree R := by
    rw [hsame.tree]
    exact hr.mirror
  have hlinks₁ : LinksStay S w₁.tree R := by
    rw [hsame.tree]
    exact hlinks
  have hcloned := hclone.cloned _ _ _ hmirror₁ hrun hlog
  have hlinks₂ := hstays _ _ _ hmirror₁ hlinks₁ hrun hlog
  have hkeeps := hcloned.keeps
  rw [hsame.tree] at hkeeps
  obtain ⟨loc, hwalk, hnone, hput, hne⟩ := symlink_ok hmade
  obtain ⟨d, name, m, hp, hlast⟩ := hs.spot hcloned.mirror hr.sound hr.parent
    (hr.mirrored.mono hkeeps) hwalk (isDir_of_none hnone)
  obtain ⟨rfl, hd, _⟩ := hp.place hlast hnone
  obtain ⟨y, hy, hone⟩ := hp.leads_one hr.sound
  obtain rfl := (hp.like hr.sound hr.mirror.keeps (readLink_ok hread)).symm.link
  have hlead := hp.linkPath_leads hr.parent hone
  rw [hput]
  refine hlinks₂.put fun dir' name' text' hl htext => ?_
  obtain ⟨rfl, hname⟩ := List.append_inj' (List.append_cancel_left hl) rfl
  obtain rfl := List.singleton_inj.mp hname
  obtain rfl := Node.link.inj htext
  obtain ⟨hrelative, hstay, hleads⟩ := link_stays hs.rooted hr.sound hpath hlink hr.parent hp.leads
    hlead hrel hne
  exact ⟨hrelative, hstay, y, hleads, hone⟩

theorem EntryOk.linksStay (hs : Setting env root S R) (hclone : Mirrors root S R clone)
    (hstays : Stays S R clone) (hr : Prepared S R source dir w.tree)
    (hlinks : LinksStay S w.tree R) (hsound : SoundLog S w'.log)
    (hline : .clonePath source (targetOf root source) ∈ w.log)
    (h : EntryOk env root clone fuel source (targetOf root source) n w w') :
    LinksStay S w'.tree R := by
  have hpre := h.log hclone
  cases h with
  | link hlink hread hsame hrun hrel hmade hlog =>
      have hpre₂ : _ <+: w'.log := hlog ▸ List.prefix_append _ _
      have hpath := List.IsPrefix.subset hpre₂ (hclone.line _ _ _ hrun)
      exact linksStay_link hs hclone hstays hr hlinks hread hsame hrun hrel hmade
        (hsound.of_prefix hpre₂) (hsound.calls _ _ hpath)
        (hsound.links _ _ _ (List.IsPrefix.subset hpre hline) (hlog ▸ by simp))
  | dir hlink hfollowed hdir hmade hlog =>
      obtain ⟨loc, _, _, hput⟩ := mkdir_ok hmade
      rw [hput]
      exact hlinks.put fun _ _ _ _ htext => by cases htext
  | file hlink hfollowed hfile htree hlog hcopy =>
      have hlinks₁ := hlinks
      rw [← htree] at hlinks₁
      rcases copyFile_tree hcopy with hsame | ⟨loc, mode, content, _, _, hput⟩
      · rw [hsame]
        exact hlinks₁
      · rw [hput]
        exact hlinks₁.put fun _ _ _ _ htext => by cases htext

/-- One call, if the calls it makes itself do as much. -/
theorem StepOk.linksStay (hs : Setting env root S R) (hclone : Mirrors root S R clone)
    (hstays : Stays S R clone) (hmirror : Mirror S w.tree R) (hlinks : LinksStay S w.tree R)
    (hsound : SoundLog S w'.log) (h : StepOk env root clone fuel source w w') :
    LinksStay S w'.tree R := by
  have hsource : Sound S source := hsound.calls _ _ (h.line hclone)
  cases h with
  | found _ htree _ =>
      rw [htree]
      exact hlinks
  | top _ htree _ =>
      rw [htree]
      exact hlinks
  | @made dir n w₁ w₂ w₃ w₄ hparent htree hlog hrun hstatus hrelaxed hrelaxedLog hentry hrestored
      hrestoredLog =>
      have hpre₃ : w₃.log <+: w'.log := hrestoredLog ▸ hentry.log hclone
      have hmirror₁ : Mirror S w₁.tree R := by
        rw [htree]
        exact hmirror
      have hlinks₁ : LinksStay S w₁.tree R := by
        rw [htree]
        exact hlinks
      have hsound₂ : SoundLog S w₂.log := hsound.of_prefix (hrelaxedLog ▸ hpre₃)
      have hdir := hclone.cloned dir w₁ w₂ hmirror₁ hrun hsound₂
      have hlinks₂ := hstays dir w₁ w₂ hmirror₁ hlinks₁ hrun hsound₂
      have hline : .clonePath source (targetOf root source) ∈ w₃.log := by
        rw [hrelaxedLog]
        apply List.IsPrefix.subset (hclone.log hrun)
        rw [hlog]
        exact List.mem_append_right _ List.mem_cons_self
      have hprep : Prepared S R source dir w₃.tree :=
        ⟨hsource, hparent, hdir.mirror.alike hrelaxed, hdir.mirrored.mono hrelaxed.forth⟩
      have hmade := hentry.linksStay hs hclone hstays hprep (hlinks₂.alike hrelaxed)
        (hrestoredLog ▸ hsound) hline
      exact hmade.alike hrestored

theorem stays_clonePath (hs : Setting env root S R) (fuel : Nat) :
    Stays S R (clonePath env root fuel) := by
  induction fuel with
  | zero => exact fun _ _ _ _ _ hrun => nomatch hrun
  | succ fuel ih =>
      intro source w w' hmirror hlinks hrun hsound
      exact (cloneStep_ends hrun).ok.linksStay hs (mirrors_clonePath hs fuel) ih hmirror hlinks hsound

theorem installFiles_linksStay (hs : Setting env root S R) {files : List OsString}
    (hmirror : Mirror S w.tree R) (hlinks : LinksStay S w.tree R)
    (hrun : installFiles env root fuel files w = some (.ok (), w'))
    (hsound : SoundLog S w'.log) : LinksStay S w'.tree R := by
  induction files generalizing w with
  | nil =>
      obtain ⟨_, rfl⟩ := pure_eq_some.mp hrun
      exact hlinks
  | cons file files ih =>
      obtain ⟨u, w₁, hfirst, hrest⟩ := bind_eq_ok.mp hrun
      have hpre : w₁.log <+: w'.log :=
        (log_invariant w₁.log).installFiles fuel files _ _ _ (List.prefix_refl _) hrest
      have hsound₁ := hsound.of_prefix hpre
      have hcloned := (mirrors_clonePath hs fuel).cloned _ _ _ hmirror hfirst hsound₁
      exact ih hcloned.mirror (stays_clonePath hs fuel _ _ _ hmirror hlinks hfirst hsound₁) hrest

end Calls

/-! ## The image -/

/-- The path leads in the image, from its root on, to the place of what it leads to on
the host, and to an entry of its kind and content. -/
def InImage (S image : Tree) (path : OsString) : Prop :=
  hasRoot path = true ∧ ∃ y n n', Walks S true false [] (steps path) y ∧ S.node y = some n ∧
    Walks image true false [] (steps path) y ∧ image.node y = some n' ∧ n.Like n'

theorem inImage_of_mirrored (h : Mirror S C R)
    (hlinks : LinksStay S C R) (hR : C.isDir R = true) (hsound : Sound S source)
    (hmirrored : Mirrored S C R (body source)) : InImage S (C.below R hR) source := by
  obtain ⟨y, hS, hC⟩ := hmirrored.below h hlinks hR (rootDir_not_mem_body source) hsound.stays
  obtain ⟨y', hy⟩ := hsound.leads
  obtain rfl := hS.unique (leads_body hy)
  obtain ⟨n', hn', hno⟩ := hC.ends (Walks.isDir_root _)
  obtain ⟨n, hn, hmatch⟩ := h.entry y n' hn'
  have hlike : n.Like n' := hmatch.like hno
  refine ⟨hsound.absolute, y, n, n', hy, hn, ?_, hn', hlike⟩
  rw [steps]
  split
  · rename_i hend
    have hdir : (C.below R hR).isDir y = true := by
      rcases walks_body hy with ⟨hopen, _⟩ | ⟨_, _, hdir⟩
      · rw [hend] at hopen
        cases hopen
      · rw [Tree.isDir, hn] at hdir
        rw [Tree.isDir, hn']
        exact hlike.isDir.trans hdir
    exact hC.trans (.curDir hdir (.done _))
  · rw [List.append_nil]
    exact hC

/-- After a run that ends well into an empty directory, with all of its calls and links
sound, every file that was asked for is in the image: its path leads there from the
root of the image to the place it leads to on the host. -/
theorem installFiles_image {fuel : Nat} {flags : Flags} {files : List OsString} {w : World}
    (hs : Setting env root S R)
    (hrun : installFiles env root fuel files (World.start S flags) = some (.ok (), w))
    (hsound : SoundLog S w.log) :
    ∃ hR : w.tree.isDir R = true, ∀ file ∈ files, InImage S (w.tree.below R hR) file := by
  have hmirror := mirror_empty hs.dir hs.empty
  obtain ⟨hext, hmirror', hfiles⟩ := installFiles_cloned hs hmirror hrun hsound
  have hlinks := installFiles_linksStay hs hmirror (linksStay_empty hs.empty) hrun hsound
  refine ⟨hext.isDir hs.dir, fun file hfile => ?_⟩
  obtain ⟨hsource, hmirrored⟩ := hfiles file hfile
  exact inImage_of_mirrored hmirror' hlinks _ hsource hmirrored

end File
end DracutInstall

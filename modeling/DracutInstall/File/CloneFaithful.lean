/-
The tree below the destination mirrors the source tree.

`Sound` and `LinkSound` are what is asked of the calls and of the links of a run;
under them `Mirror` is kept by every step (`StepOk.mirrors`), and with it every path
that has been cloned leads, below the destination, to the place of what it leads to.
-/
import DracutInstall.File.CloneCalls
import DracutInstall.Lib.TreeMirror

namespace DracutInstall
namespace File

open ByteCodec Rust Process UnixPath FileTree Tree

/-! ## What is asked of a run -/

/-- A path a call is sound for: one separator at its front, something at its end, no
`..` at the root on its way, and no link named with a separator behind it. -/
structure Sound (S : Tree) (source : OsString) : Prop where
  absolute : hasRoot source = true
  single : hasRoot (source.drop 1) = false
  leads : ∃ y, Walks S true false [] (steps source) y
  stays : StaysBelow S [] (body source)
  notLink : endsBlank source = true → ∀ y n, Walks S false false [] (body source) y →
    S.node y = some n → n.isLink = false

/-- The directory of a link and the path the link leads to agree up to some place and
nowhere behind it, the path is no shorter, and the directory lies as many names below
that place as it has components behind it. -/
def LinkSound (S : Tree) (source path : OsString) : Prop :=
  ∃ dir c u v m us, parent source = some dir ∧ body dir = c ++ u ∧ body path = c ++ v ∧
    (u.length ≤ v.length ∧ ∀ j < u.length, v[j]? ≠ u[j]?) ∧
    Walks S true false [] c m ∧ Walks S true false [] (body dir) (m ++ us) ∧
    us.length = u.length

/-- The calls and the links on a log are sound. -/
structure SoundLog (S : Tree) (log : List Line) : Prop where
  calls : ∀ source target, .clonePath source target ∈ log → Sound S source
  links : ∀ source path target, .clonePath source target ∈ log →
    .clonePathSymlink path target ∈ log → LinkSound S source path

theorem SoundLog.of_prefix {S : Tree} {log log' : List Line} (h : SoundLog S log')
    (hpre : log <+: log') : SoundLog S log where
  calls source target hline := h.calls source target (List.IsPrefix.subset hpre hline)
  links source path target hline hlink :=
    h.links source path target (List.IsPrefix.subset hpre hline) (List.IsPrefix.subset hpre hlink)

/-- An empty directory to clone into, and copies that can be relied on. -/
structure Setting (env : Env) (root : OsString) (S : Tree) (R : Loc) : Prop where
  steady : env.Steady
  rooted : hasRoot root = true
  leads : Walks S true false [] (steps root) R
  dir : S.isDir R = true
  empty : ∀ name, S.node (R ++ [name]) = none

variable {env : Env} {root source : OsString} {S C : Tree} {R : Loc}

theorem Sound.pushed (h : Sound S source) : Pushed source := fun _ => h.single

theorem rootDir_not_mem_body (p : OsString) : .rootDir ∉ body p := by
  intro h
  rcases mem_body h with h | ⟨_, h, _⟩ <;> cases h

/-- What a path asks for, and its components. -/
theorem walks_body {t : Tree} {missing : Bool} {cur loc : Loc} {p : OsString}
    (h : Walks t true missing cur (steps p) loc) :
    (endsBlank p = false ∧ Walks t true missing cur (body p) loc) ∨
      (endsBlank p = true ∧ Walks t true false cur (body p) loc ∧ t.isDir loc = true) := by
  rw [steps] at h
  cases hend : endsBlank p with
  | true =>
      rw [hend, if_pos rfl] at h
      exact .inr ⟨rfl, h.curDir_last⟩
  | false =>
      rw [hend, if_neg Bool.false_ne_true, List.append_nil] at h
      exact .inl ⟨rfl, h⟩

theorem leads_body {t : Tree} {cur loc : Loc} {p : OsString}
    (h : Walks t true false cur (steps p) loc) : Walks t true false cur (body p) loc := by
  rcases walks_body h with ⟨_, h⟩ | ⟨_, h, _⟩ <;> exact h

/-- Only in a directory is anything looked up. -/
theorem isDir_of_walks {t : Tree} {follow missing : Bool} {cur loc : Loc} {cs : List Component}
    (h : Walks t follow missing cur cs loc) (hcs : cs ≠ []) : t.isDir cur = true := by
  cases h with
  | done _ => exact absurd rfl hcs
  | rootDir hd _ => exact hd
  | curDir hd _ => exact hd
  | parentDir hd _ => exact hd
  | entry hd _ _ _ => exact hd
  | link hd _ _ _ => exact hd
  | last hd _ _ => exact hd
  | new hd _ _ => exact hd

namespace Setting

variable (hs : Setting env root S R)

include hs

/-- A lookup of a target goes through the destination. -/
theorem walks_target {follow missing : Bool} {loc : Loc} {cs : List Component}
    (hext : Extends S C) (hsource : hasRoot source = true) (hcs : cs ≠ [])
    (h : Walks C follow missing (start env.view (targetOf root source)) (body root ++ cs) loc) :
    Walks C follow missing R cs loc := by
  rw [start, if_pos (hasRoot_targetOf hs.rooted hsource)] at h
  obtain ⟨mid, hroot, hrest⟩ := h.split hcs
  obtain rfl := ((leads_body hs.leads).mono hext).unique hroot
  exact hrest

/-- A path whose target is there already has been mirrored. -/
theorem found (h : Mirror S C R) (hsound : Sound S source) {n : Node}
    (hstatus : C.status env.view false (targetOf root source) = .ok n) :
    Mirrored S C R (body source) := by
  obtain ⟨loc, hwalk, hn⟩ := status_ok hstatus
  have hloc : C.node loc ≠ none := by
    rw [hn]
    exact Option.some_ne_none _
  rw [hsound.pushed.steps, steps] at hwalk
  cases hend : endsBlank source with
  | true =>
      rw [hend, if_pos rfl] at hwalk
      have hbody := (hs.walks_target h.keeps hsound.absolute (by simp) hwalk).curDir_last.1
      rw [← List.append_nil R] at hbody
      obtain ⟨l, rfl, hS⟩ := h.walk_back (rootDir_not_mem_body _) hsound.stays hbody
      rw [List.append_nil] at hbody
      exact ⟨l, hS, hbody⟩
  | false =>
      rw [hend, if_neg Bool.false_ne_true, List.append_nil] at hwalk
      by_cases hne : body source = []
      · rw [hne]
        exact ⟨[], .done [], by rw [List.append_nil]; exact .done R⟩
      · exact h.found (rootDir_not_mem_body _) hsound.stays
          (hs.walks_target h.keeps hsound.absolute hne hwalk) hloc

end Setting

/-! ## Where a call makes its entry -/

/-- The name at the end of a path, the place of its parent and the entry there. -/
structure Spot (S C : Tree) (R : Loc) (source dir : OsString) (d : Loc) (name : OsString)
    (m : Node) : Prop where
  body : body source = body dir ++ [.normal name]
  leads : Walks S true false [] (UnixPath.body dir) d
  mirrored : Walks C true false R (UnixPath.body dir) (R ++ d)
  node : S.node (d ++ [name]) = some m

theorem Setting.spot (hs : Setting env root S R) (h : Mirror S C R) (hsound : Sound S source)
    {dir : OsString} (hparent : parent source = some dir) (hdir : Mirrored S C R (body dir))
    {follow missing : Bool} {loc : Loc}
    (hwalk : Walks C follow missing (start env.view (targetOf root source))
      (body (targetOf root source)) loc) (hloc : C.isDir loc = false) :
    ∃ d name m, Spot S C R source dir d name m ∧
      Walks C follow missing (R ++ d) [.normal name] loc := by
  obtain ⟨_, c, hbody⟩ := parent_eq_some hsound.absolute hparent
  rw [hsound.pushed.body, hbody] at hwalk
  have hbelow := hs.walks_target h.keeps hsound.absolute (by simp) hwalk
  obtain ⟨d, hleads, hmirrored⟩ := hdir
  obtain ⟨mid, hpre, hlast⟩ := hbelow.split (List.cons_ne_nil _ _)
  obtain rfl := hmirrored.unique hpre
  -- a directory is looked up in, and only a name leads to what is none
  obtain ⟨pre, name, hname⟩ : ∃ pre name, [c] = pre ++ [Component.normal name] := by
    exact hlast.last_name (isDir_of_walks hlast (List.cons_ne_nil _ _)) hloc
  obtain rfl : c = .normal name := by
    have hlen := congrArg List.length hname
    obtain rfl : pre = [] := by
      rw [List.length_append] at hlen
      exact List.length_eq_zero_iff.mp (Nat.succ.inj hlen).symm
    exact List.singleton_inj.mp hname
  obtain ⟨y, hy⟩ := hsound.leads
  have hy := leads_body hy
  rw [hbody] at hy
  obtain ⟨d', hd, hone⟩ := hy.cut
  obtain rfl := hleads.unique hd
  obtain ⟨m, hm⟩ : ∃ m, S.node (d ++ [name]) = some m := by
    rcases hone.name_cases with ⟨_, ⟨n, hn, _⟩ | ⟨_, hn, _⟩ | ⟨_, hn, _⟩ | ⟨_, hm, _⟩⟩
    · exact ⟨n, hn⟩
    · exact ⟨_, hn⟩
    · exact ⟨_, hn⟩
    · cases hm
  exact ⟨d, name, m, ⟨hbody, hleads, hmirrored, hm⟩, hlast⟩

namespace Spot

variable {dir name : OsString} {d loc : Loc} {m n : Node}

theorem entryName (hp : Spot S C R source dir d name m) : EntryName name := by
  have hmem : Component.normal name ∈ UnixPath.body source := by
    rw [hp.body]
    exact List.mem_append_right _ List.mem_cons_self
  rcases mem_body hmem with h | ⟨_, h, hname⟩
  · cases h
  · cases h
    exact hname

/-- What the path leads to in the source tree. -/
theorem leads_one (hp : Spot S C R source dir d name m) (hsound : Sound S source) :
    ∃ y, Walks S true false [] (steps source) y ∧ Walks S true false d [.normal name] y := by
  obtain ⟨y, hy⟩ := hsound.leads
  have hbody := leads_body hy
  rw [hp.body] at hbody
  obtain ⟨d', hd, hone⟩ := hbody.cut
  obtain rfl := hp.leads.unique hd
  exact ⟨y, hy, hone⟩

/-- What `lstat` says of the path is said of the entry. -/
theorem like {t : Tree} (hp : Spot S C R source dir d name m) (hsound : Sound S source)
    (hext : Extends S t) {v : View} (hstatus : t.status v false source = .ok n) : m.Like n := by
  obtain ⟨l, hwalk, hn⟩ := status_ok hstatus
  rw [start, if_pos hsound.absolute, steps] at hwalk
  obtain ⟨n', hn', hlike⟩ := hext _ _ hp.node
  suffices hl : l = d ++ [name] by
    rw [hl, hn'] at hn
    obtain rfl := Option.some.inj hn
    exact hlike
  cases hend : endsBlank source with
  | false =>
      rw [hend, if_neg Bool.false_ne_true, List.append_nil, hp.body] at hwalk
      obtain ⟨d', hd, hone⟩ := hwalk.split (List.cons_ne_nil _ _)
      obtain rfl := (hp.leads.mono hext).unique hd
      rcases hone.name_cases with ⟨_, ⟨_, _, _, hl⟩ | ⟨_, _, hf, _⟩ | ⟨_, _, _, hl⟩ | ⟨_, hm, _⟩⟩
      · exact hl
      · cases hf
      · exact hl
      · cases hm
  | true =>
      rw [hend, if_pos rfl] at hwalk
      have hfollowed := hwalk.curDir_last.1
      obtain ⟨y, hy, hone⟩ := hp.leads_one hsound
      obtain rfl := ((leads_body hy).mono hext).unique hfollowed
      rcases hone.name_cases with ⟨hd, ⟨_, _, _, hl⟩ | ⟨text, htext, _, _⟩ | ⟨_, _, hf, _⟩ | ⟨_, hm, _⟩⟩
      · exact hl
      · have hlstat : Walks S false false [] (UnixPath.body source) (d ++ [name]) := by
          rw [hp.body]
          exact hp.leads.append (List.cons_ne_nil _ _) (.last hd htext rfl)
        have hno := hsound.notLink hend _ _ hlstat htext
        cases hno
      · cases hf
      · cases hm

/-- A path to what is no link ends at the entry. -/
theorem ends (hp : Spot S C R source dir d name m) (hsound : Sound S source)
    (hm : m.isLink = false) : Walks S true false [] (steps source) (d ++ [name]) := by
  obtain ⟨y, hy, hone⟩ := hp.leads_one hsound
  rcases hone.name_cases with ⟨_, ⟨_, _, _, rfl⟩ | ⟨text, htext, _, _⟩ | ⟨_, _, hf, _⟩ | ⟨_, hmissing, _⟩⟩
  · exact hy
  · rw [hp.node] at htext
    obtain rfl := Option.some.inj htext
    cases hm
  · cases hf
  · cases hmissing

/-- What `stat` says of a path to what is no link is said of the entry as well. -/
theorem like_followed {t : Tree} (hp : Spot S C R source dir d name m) (hsound : Sound S source)
    (hm : m.isLink = false) (hext : Extends S t) {v : View}
    (hstatus : t.status v true source = .ok n) : m.Like n := by
  obtain ⟨l, hwalk, hn⟩ := status_ok hstatus
  rw [start, if_pos hsound.absolute] at hwalk
  obtain rfl := ((hp.ends hsound hm).mono hext).unique hwalk
  obtain ⟨n', hn', hlike⟩ := hext _ _ hp.node
  rw [hn'] at hn
  obtain rfl := Option.some.inj hn
  exact hlike

/-- Where nothing is yet, the target is the name below the place of the parent. -/
theorem place (hp : Spot S C R source dir d name m)
    (hlast : Walks C false true (R ++ d) [.normal name] loc) (hnone : C.node loc = none) :
    loc = R ++ (d ++ [name]) ∧ C.isDir (R ++ d) = true ∧ C.fits (R ++ (d ++ [name])) = true := by
  rcases hlast.name_cases with ⟨hd, ⟨_, hn, _, rfl⟩ | ⟨_, _, hf, _⟩ | ⟨_, hn, _, rfl⟩ | ⟨_, _, rfl⟩⟩
  · rw [hn] at hnone
    cases hnone
  · cases hf
  · rw [hn] at hnone
    cases hnone
  · rw [← List.append_assoc]
    refine ⟨rfl, hd, fits_concat.mpr ⟨hd, hp.entryName, ?_⟩⟩
    rw [Tree.isDir, hnone]
    rfl

/-- Once the entry is there, the path is mirrored. -/
theorem mirrored_of_entry {C' : Tree} (hp : Spot S C R source dir d name m)
    (hsound : Sound S source) (hm : m.isLink = false) (hext : Extends C C')
    (hdir : C.isDir (R ++ d) = true) (hn : C'.node (R ++ (d ++ [name])) = some n)
    (hnlink : n.isLink = false) : Mirrored S C' R (UnixPath.body source) := by
  refine ⟨d ++ [name], leads_body (hp.ends hsound hm), ?_⟩
  rw [hp.body]
  refine (hp.mirrored.mono hext).trans ?_
  rw [← List.append_assoc] at hn ⊢
  exact .entry (hext.isDir hdir) hn hnlink (.done _)

end Spot

/-! ## The three kinds of entry -/

section Entries

variable {dir : OsString} {d : Loc}

/-- What a link of the source tree leads to is what its path leads to. -/
theorem linkPath_leads {text : OsString} {y : Loc} (hparent : parent source = some dir)
    (hd : Walks S true false [] (body dir) d)
    (h : Walks S true false (linkBase d text) (steps text) y) :
    Walks S true false [] (body (linkPath source text)) y := by
  have hbody := leads_body h
  rw [linkPath, hparent]
  rw [linkBase] at hbody
  split
  · rename_i htext
    rw [if_pos htext] at hbody
    exact hbody
  · rename_i htext
    rw [if_neg htext] at hbody
    rw [Option.getD_some, body_push (by simpa using htext)]
    exact hd.trans hbody

/-- So it is what the name of the link leads to. -/
theorem Spot.linkPath_leads {name text : OsString} {y : Loc}
    (hp : Spot S C R source dir d name (.link text)) (hparent : parent source = some dir)
    (hone : Walks S true false d [.normal name] y) :
    Walks S true false [] (UnixPath.body (linkPath source text)) y := by
  rcases hone.name_cases with ⟨_, ⟨n, hn, hno, _⟩ | ⟨text', hn, _, hgo⟩ | ⟨_, _, hf, _⟩ | ⟨_, hmissing, _⟩⟩
  · rw [hp.node] at hn
    obtain rfl := Option.some.inj hn
    cases hno
  · rw [hp.node] at hn
    obtain rfl : text = text' := Node.link.inj (Option.some.inj hn)
    exact File.linkPath_leads hparent hp.leads hgo
  · cases hf
  · cases hmissing

/-- The text of a sound link climbs to where the two paths part, and goes down from there. -/
theorem LinkSound.text {path rel : OsString} (hlink : LinkSound S source path)
    (hroot : root ≠ []) (hsource : Sound S source) (hpath : Sound S path)
    (hparent : parent source = some dir) (hd : Walks S true false [] (body dir) d)
    (hrel : convertAbsRel (targetOf root path) (targetOf root source) = some rel)
    (hne : rel ≠ []) :
    hasRoot rel = false ∧ ∃ c u v m us, d = m ++ us ∧ us.length = u.length ∧
      body dir = c ++ u ∧ body path = c ++ v ∧ (∀ j < u.length, v[j]? ≠ u[j]?) ∧
      Walks S true false [] c m ∧ steps rel = List.replicate us.length .parentDir ++ v := by
  obtain ⟨dir', c, u, v, m, us, hdir', hu, hv, ⟨hlen, hdiffer⟩, hm, hus, huslen⟩ := hlink
  obtain rfl := Option.some.inj (hparent.symm.trans hdir')
  obtain rfl := hd.unique hus
  obtain ⟨_, last, hlast⟩ := parent_eq_some hsource.absolute hparent
  obtain ⟨dirT, hdirT, hdirBody, hdirLead⟩ := hsource.pushed.parent_target hroot hlast
  have hlead : leadComponents (targetOf root path) = leadComponents dirT := by
    rw [hdirLead, leadComponents, hpath.pushed.lead hroot, leadComponents]
  rw [hu, ← List.append_assoc] at hdirBody
  have hpathBody : body (targetOf root path) = body root ++ c ++ v := by
    rw [hpath.pushed.body, hv, List.append_assoc]
  obtain ⟨rel', hrel', hrelative, hbody, hend⟩ := convertAbsRel_common hdirT hlead hpathBody
    hdirBody hlen hdiffer
  obtain rfl := Option.some.inj (hrel'.symm.trans hrel)
  refine ⟨hrelative, c, u, v, m, us, rfl, huslen, hu, hv, hdiffer, hm, ?_⟩
  rw [steps, hend hne, if_neg Bool.false_ne_true, List.append_nil, hbody, huslen]

/-- A made link leads to the place of what the link of the source tree leads to. -/
theorem link_leads (hrooted : hasRoot root = true) (h : Mirror S C R) (hsource : Sound S source)
    {path rel : OsString} {y : Loc} (hpath : Sound S path) (hlink : LinkSound S source path)
    (hparent : parent source = some dir) (hd : Walks S true false [] (body dir) d)
    (hdir : C.isDir (R ++ d) = true)
    (hC : Walks C true false R (body path) (R ++ y))
    (hrel : convertAbsRel (targetOf root path) (targetOf root source) = some rel)
    (hne : rel ≠ []) :
    hasRoot rel = false ∧ Walks C true false (R ++ d) (steps rel) (R ++ y) := by
  obtain ⟨hrelative, c, u, v, m, us, rfl, _, _, hv, _, hm, hsteps⟩ :=
    hlink.text (ne_nil_of_hasRoot hrooted) hsource hpath hparent hd hrel hne
  refine ⟨hrelative, ?_⟩
  rw [hsteps]
  rw [← List.append_assoc] at hdir ⊢
  refine (Walks.climb us hdir).trans ?_
  rw [hv] at hC
  obtain ⟨mid, hc, hdown⟩ := hC.cut
  have hc' := hc
  rw [← List.append_nil R] at hc'
  have hmem : .rootDir ∉ c := fun hin => rootDir_not_mem_body path (hv ▸ List.mem_append_left _ hin)
  have hstays := hpath.stays
  rw [hv] at hstays
  obtain ⟨m', rfl, hm'⟩ := h.walk_back hmem hstays.left hc'
  obtain rfl := hm.unique hm'
  exact hdown

end Entries

/-! ## Calls -/

/-- What a call that ends well has done: nothing is lost, the mirror stands, and the
path is mirrored. -/
structure Cloned (S : Tree) (R : Loc) (source : OsString) (w w' : World) : Prop where
  keeps : Extends w.tree w'.tree
  mirror : Mirror S w'.tree R
  mirrored : Mirrored S w'.tree R (body source)

/-- What is asked of the calls of `clone_path` by itself. -/
structure Mirrors (root : OsString) (S : Tree) (R : Loc) (clone : OsString → Run Unit) : Prop where
  logs : ∀ source log, Keeps (fun w => log <+: w.log) (fun w => log <+: w.log) (clone source)
  line : ∀ source w w', clone source w = some (.ok (), w') →
    .clonePath source (targetOf root source) ∈ w'.log
  cloned : ∀ source w w', Mirror S w.tree R → clone source w = some (.ok (), w') →
    SoundLog S w'.log → Cloned S R source w w'

theorem Mirrors.log {clone : OsString → Run Unit} (h : Mirrors root S R clone) {w w' : World}
    {r : Outcome CloneError Unit} (hrun : clone source w = some (r, w')) : w.log <+: w'.log :=
  h.logs source w.log w r w' (List.prefix_refl _) hrun

section Calls

variable {clone : OsString → Run Unit} {fuel : Nat} {dir : OsString} {n : Node} {w w' : World}

theorem EntryOk.log (hclone : Mirrors root S R clone) {target : OsString}
    (h : EntryOk env root clone fuel source target n w w') : w.log <+: w'.log := by
  cases h with
  | link hlink hread hsame hrun hrel hmade hlog =>
      rw [hlog, ← hsame.log]
      exact (hclone.log hrun).trans (List.prefix_append _ _)
  | dir hlink hstatus hdir hmade hlog =>
      rw [hlog]
      exact List.prefix_append _ _
  | file hlink hstatus hfile htree hlog hcopy =>
      refine List.IsPrefix.trans ?_
        (keeps_copyFile_log _ fuel source target _ _ _ (List.prefix_refl _) hcopy)
      rw [hlog]
      exact List.prefix_append _ _

/-- The parent of a path has been cloned, and its entry is to be made. -/
structure Prepared (S : Tree) (R : Loc) (source dir : OsString) (t : Tree) : Prop where
  sound : Sound S source
  parent : parent source = some dir
  mirror : Mirror S t R
  mirrored : Mirrored S t R (body dir)

theorem put_missing_extends {t : Tree} {loc : Loc} (h : t.node loc = none) :
    Extends t (t.put loc n) := by
  refine put_extends fun n' hn' => ?_
  rw [h] at hn'
  cases hn'

/-- A link: what it leads to has been cloned first. -/
theorem cloned_link (hs : Setting env root S R) (hclone : Mirrors root S R clone)
    (hr : Prepared S R source dir w.tree) {text rel : OsString} {w₁ w₂ : World}
    (hread : w.tree.readLink env.view source = .ok text)
    (hsame : World.Same w w₁) (hrun : clone (linkPath source text) w₁ = some (.ok (), w₂))
    (hrel : convertAbsRel (targetOf root (linkPath source text)) (targetOf root source) = some rel)
    (hmade : w₂.tree.symlink env.view rel (targetOf root source) = .ok w'.tree)
    (hlog : SoundLog S w₂.log) (hpath : Sound S (linkPath source text))
    (hlink : LinkSound S source (linkPath source text)) : Cloned S R source w w' := by
  have hcloned := hclone.cloned _ _ _ (by rw [hsame.tree]; exact hr.mirror) hrun hlog
  have hkeeps := hcloned.keeps
  rw [hsame.tree] at hkeeps
  obtain ⟨loc, hwalk, hnone, hput, hne⟩ := symlink_ok hmade
  obtain ⟨d, name, m, hp, hlast⟩ := hs.spot hcloned.mirror hr.sound hr.parent
    (hr.mirrored.mono hkeeps) hwalk (isDir_of_none hnone)
  obtain ⟨rfl, hd, hfits⟩ := hp.place hlast hnone
  obtain rfl := (hp.like hr.sound hr.mirror.keeps (readLink_ok hread)).symm.link
  obtain ⟨y, hy, hone⟩ := hp.leads_one hr.sound
  have hlead := hp.linkPath_leads hr.parent hone
  obtain ⟨y', hS, hC⟩ := hcloned.mirrored
  obtain rfl := hlead.unique hS
  obtain ⟨hrelative, hmadeLeads⟩ := link_leads hs.rooted hcloned.mirror hr.sound hpath hlink
    hr.parent hp.leads hd hC hrel hne
  have hext : Extends w₂.tree w'.tree := hput ▸ put_missing_extends hnone
  have hnew : Walks w'.tree true false (R ++ d) [.normal name] (R ++ y) := by
    have hn : w'.tree.node (R ++ d ++ [name]) = some (.link rel) := by
      rw [hput, put_node hfits, List.append_assoc, if_pos rfl]
    refine .link (hext.isDir hd) hn (.inr rfl) ?_
    rw [List.append_nil, linkBase, if_neg (by rw [hrelative]; exact Bool.false_ne_true)]
    exact hmadeLeads.mono hext
  refine ⟨hkeeps.trans hext, ?_, y, leads_body hy, ?_⟩
  · rw [hput] at hnew ⊢
    refine hcloned.mirror.put hfits hp.node (.inl ⟨rfl, rfl⟩) (fun n' hn' => ?_) ?_
    · rw [hnone] at hn'
      cases hn'
    · intro dir' name' text' hl _
      obtain ⟨rfl, hname⟩ := List.append_inj' hl rfl
      obtain rfl := List.singleton_inj.mp hname
      exact ⟨y, hone, hnew⟩
  · rw [hp.body]
    exact (hp.mirrored.mono hext).trans hnew

/-- An entry like the one of the source tree put where a path to what is no link goes. -/
theorem cloned_entry (hr : Prepared S R source dir w.tree) {d : Loc} {name : OsString} {m : Node}
    (hp : Spot S w.tree R source dir d name m) (hd : w.tree.isDir (R ++ d) = true)
    (hfits : w.tree.fits (R ++ (d ++ [name])) = true) (hlike : m.Like n)
    (hm : m.isLink = false)
    (hold : ∀ n', w.tree.node (R ++ (d ++ [name])) = some n' → n'.Like n)
    (hput : w'.tree = w.tree.put (R ++ (d ++ [name])) n) : Cloned S R source w w' := by
  have hext : Extends w.tree w'.tree := hput ▸ put_extends hold
  have hnlink : n.isLink = false := hlike.isLink.trans hm
  have hn : w'.tree.node (R ++ (d ++ [name])) = some n := by
    rw [hput, put_node hfits, if_pos rfl]
  refine ⟨hext, ?_, hp.mirrored_of_entry hr.sound hm hext hd hn hnlink⟩
  rw [hput]
  refine hr.mirror.put hfits hp.node (.inr hlike) hold fun _ _ _ _ htext => ?_
  rw [htext] at hnlink
  cases hnlink

theorem cloned_dir (hs : Setting env root S R) (hr : Prepared S R source dir w.tree) {mode : Nat}
    {e : Node} {t : Tree} (hext : Extends S t) (hstatus : t.status env.view false source = .ok n)
    (hlink : n.isLink = false) (hfollowed : w.tree.status env.view true source = .ok e)
    (he : e.isDir = true)
    (hmade : w.tree.mkdir env.view (targetOf root source) mode = .ok w'.tree) :
    Cloned S R source w w' := by
  obtain ⟨loc, hwalk, hnone, hput⟩ := mkdir_ok hmade
  obtain ⟨d, name, m, hp, hlast⟩ :=
    hs.spot hr.mirror hr.sound hr.parent hr.mirrored hwalk (isDir_of_none hnone)
  obtain ⟨rfl, hd, hfits⟩ := hp.place hlast hnone
  have hm : m.isLink = false := (hp.like hr.sound hext hstatus).isLink.symm.trans hlink
  have hlike := hp.like_followed hr.sound hm hr.mirror.keeps hfollowed
  refine cloned_entry hr hp hd hfits (hlike.trans ?_) hm (fun n' hn' => ?_) hput
  · cases e with
    | dir mode' => rfl
    | file mode' content => cases he
    | link text => cases he
    | special mode' => cases he
  · rw [hnone] at hn'
    cases hn'

theorem cloned_file (hs : Setting env root S R) (hr : Prepared S R source dir w.tree) {t : Tree}
    (hext : Extends S t) (hstatus : t.status env.view false source = .ok n)
    (hlink : n.isLink = false) {w₁ : World} (htree : w₁.tree = w.tree)
    (hcopy : copyFile env fuel source (targetOf root source) w₁ = some (.ok (.ok ()), w')) :
    Cloned S R source w w' := by
  obtain ⟨_, l, mode, content, loc, hfrom, hnode, hto, hno, hput⟩ :=
    copyFile_ok (hs.steady.copy _) hcopy
  rw [htree] at hfrom hnode hto hno hput
  rcases walks_body hto with ⟨_, hwalk⟩ | ⟨_, _, hdir⟩
  · obtain ⟨d, name, m, hp, hlast⟩ := hs.spot hr.mirror hr.sound hr.parent hr.mirrored hwalk hno
    have hm : m.isLink = false := (hp.like hr.sound hext hstatus).isLink.symm.trans hlink
    -- the entry copied is the one of the source tree, and the one written is another
    rw [start, if_pos hr.sound.absolute] at hfrom
    obtain rfl := ((hp.ends hr.sound hm).mono hr.mirror.keeps).unique hfrom
    obtain ⟨n', hn', hlike⟩ := hr.mirror.keeps _ _ hp.node
    rw [hn'] at hnode
    obtain rfl := Option.some.inj hnode
    have hold : ∀ n', w.tree.node (R ++ (d ++ [name])) = some n' → m.Like n' := by
      intro n' hn'
      obtain ⟨m', hm', hmatch⟩ := hr.mirror.entry _ _ hn'
      rw [hp.node] at hm'
      obtain rfl := Option.some.inj hm'
      exact hmatch.like (hmatch.isLink.trans hm)
    obtain ⟨hd, rfl⟩ : w.tree.isDir (R ++ d) = true ∧ loc = R ++ (d ++ [name]) := by
      rw [← List.append_assoc] at hold ⊢
      rcases hlast.name_cases with ⟨hd, ⟨_, _, _, hl⟩ | ⟨text, hn, _, _⟩ | ⟨_, _, hf, _⟩ | ⟨_, _, hl⟩⟩
      · exact ⟨hd, hl⟩
      · rw [← (hold _ hn).isLink] at hm
        cases hm
      · cases hf
      · exact ⟨hd, hl⟩
    have hne : R ++ (d ++ [name]) ≠ d ++ [name] := by
      intro heq
      have hnone := node_below_empty hs.empty (l := d ++ [name]) (by simp)
      rw [heq, hp.node] at hnone
      cases hnone
    obtain ⟨mode', hput⟩ := hput hne fun n' hn' => by
      have hfile := hlike.symm.trans (hold n' hn')
      cases n' with
      | file mode' content' => rfl
      | dir mode' => cases hfile
      | link text => cases hfile
      | special mode' => cases hfile
    have hfits : w.tree.fits (R ++ (d ++ [name])) = true := by
      rw [← List.append_assoc] at hno ⊢
      exact fits_concat.mpr ⟨hd, hp.entryName, hno⟩
    have hwritten : m.Like (.file mode' content) := hlike.trans rfl
    exact cloned_entry hr hp hd hfits hwritten hm
      (fun n' hn' => (hold n' hn').symm.trans hwritten) hput
  · rw [hno] at hdir
    cases hdir

/-- One branch of a call, if the calls it makes itself do as much. -/
theorem EntryOk.cloned (hs : Setting env root S R) (hclone : Mirrors root S R clone)
    (hr : Prepared S R source dir w.tree) {t : Tree} (hext : Extends S t)
    (hstatus : t.status env.view false source = .ok n) (hsound : SoundLog S w'.log)
    (hline : .clonePath source (targetOf root source) ∈ w.log)
    (h : EntryOk env root clone fuel source (targetOf root source) n w w') :
    Cloned S R source w w' := by
  have hpre := h.log hclone
  cases h with
  | link hlink hread hsame hrun hrel hmade hlog =>
      have hpre₂ : _ <+: w'.log := hlog ▸ List.prefix_append _ _
      have hpath := List.IsPrefix.subset hpre₂ (hclone.line _ _ _ hrun)
      refine cloned_link hs hclone hr hread hsame hrun hrel hmade (hsound.of_prefix hpre₂)
        (hsound.calls _ _ hpath)
        (hsound.links _ _ _ (List.IsPrefix.subset hpre hline) (hlog ▸ by simp))
  | dir hlink hfollowed hdir hmade hlog =>
      exact cloned_dir hs hr hext hstatus hlink hfollowed hdir hmade
  | file hlink hfollowed hfile htree hlog hcopy =>
      exact cloned_file hs hr hext hstatus hlink htree hcopy

theorem StepOk.line (hclone : Mirrors root S R clone)
    (h : StepOk env root clone fuel source w w') :
    .clonePath source (targetOf root source) ∈ w'.log := by
  cases h with
  | found _ _ hlog =>
      rw [hlog]
      exact List.mem_append_right _ List.mem_cons_self
  | top _ _ hlog =>
      rw [hlog]
      exact List.mem_append_right _ List.mem_cons_self
  | made _ _ hlog hrun _ _ hrelaxedLog hentry _ hrestoredLog =>
      have hpre := (hclone.log hrun).trans (hrelaxedLog ▸ hentry.log hclone)
      rw [hrestoredLog]
      refine List.IsPrefix.subset hpre ?_
      rw [hlog]
      exact List.mem_append_right _ List.mem_cons_self

/-- One call, if the calls it makes itself do as much. -/
theorem StepOk.cloned (hs : Setting env root S R) (hclone : Mirrors root S R clone)
    (hmirror : Mirror S w.tree R) (hsound : SoundLog S w'.log)
    (h : StepOk env root clone fuel source w w') : Cloned S R source w w' := by
  have hsource : Sound S source := hsound.calls _ _ (h.line hclone)
  cases h with
  | found hstatus htree _ =>
      have hfound := hs.found hmirror hsource hstatus
      rw [← htree] at hmirror hfound
      exact ⟨htree ▸ .refl _, hmirror, hfound⟩
  | top hparent htree _ =>
      rw [← htree] at hmirror
      refine ⟨htree ▸ .refl _, hmirror, [], ?_⟩
      rw [parent_eq_none hparent, List.append_nil]
      exact ⟨.done [], .done R⟩
  | @made dir n w₁ w₂ w₃ w₄ hparent htree hlog hrun hstatus hrelaxed hrelaxedLog hentry hrestored
      hrestoredLog =>
      have hpre₃ : w₃.log <+: w'.log := hrestoredLog ▸ hentry.log hclone
      have hdir := hclone.cloned dir w₁ w₂ (by rw [htree]; exact hmirror) hrun
        (hsound.of_prefix (hrelaxedLog ▸ hpre₃))
      have hline : .clonePath source (targetOf root source) ∈ w₃.log := by
        rw [hrelaxedLog]
        refine List.IsPrefix.subset (hclone.log hrun) ?_
        rw [hlog]
        exact List.mem_append_right _ List.mem_cons_self
      have hprep : Prepared S R source dir w₃.tree :=
        ⟨hsource, hparent, hdir.mirror.alike hrelaxed, hdir.mirrored.mono hrelaxed.forth⟩
      have hmade := hentry.cloned hs hclone hprep hdir.mirror.keeps hstatus
        (hrestoredLog ▸ hsound) hline
      have hkeeps := hdir.keeps.trans (hrelaxed.forth.trans (hmade.keeps.trans hrestored.forth))
      rw [htree] at hkeeps
      exact ⟨hkeeps, hmade.mirror.alike hrestored, hmade.mirrored.mono hrestored.forth⟩

theorem mirrors_clonePath (hs : Setting env root S R) (fuel : Nat) :
    Mirrors root S R (clonePath env root fuel) := by
  induction fuel with
  | zero =>
      refine ⟨fun source log => (log_invariant log).clonePath 0 source, ?_, ?_⟩
      · rintro _ _ _ ⟨⟩
      · rintro _ _ _ _ ⟨⟩
  | succ fuel ih =>
      refine ⟨fun source log => (log_invariant log).clonePath (fuel + 1) source, ?_, ?_⟩
      · exact fun source w w' hrun => (cloneStep_ends hrun).ok.line ih
      · exact fun source w w' hmirror hrun hsound => (cloneStep_ends hrun).ok.cloned hs ih hmirror hsound

theorem installFiles_cloned (hs : Setting env root S R) {files : List OsString} {w w' : World}
    (hmirror : Mirror S w.tree R) (hrun : installFiles env root fuel files w = some (.ok (), w'))
    (hsound : SoundLog S w'.log) :
    Extends w.tree w'.tree ∧ Mirror S w'.tree R ∧
      ∀ file ∈ files, Sound S file ∧ Mirrored S w'.tree R (body file) := by
  induction files generalizing w with
  | nil =>
      obtain ⟨_, rfl⟩ := pure_eq_some.mp hrun
      exact ⟨.refl _, hmirror, fun file hfile => absurd hfile List.not_mem_nil⟩
  | cons file files ih =>
      obtain ⟨u, w₁, hfirst, hrest⟩ := bind_eq_ok.mp hrun
      have hpre : w₁.log <+: w'.log :=
        (log_invariant w₁.log).installFiles fuel files _ _ _ (List.prefix_refl _) hrest
      have hclone := mirrors_clonePath hs fuel
      have hline := List.IsPrefix.subset hpre (hclone.line _ _ _ hfirst)
      have hcloned := hclone.cloned _ _ _ hmirror hfirst (hsound.of_prefix hpre)
      obtain ⟨hkeeps, hmirror', hfiles⟩ := ih hcloned.mirror hrest
      refine ⟨hcloned.keeps.trans hkeeps, hmirror', fun f hf => ?_⟩
      rcases List.mem_cons.mp hf with rfl | hf
      · exact ⟨hsound.calls _ _ hline, hcloned.mirrored.mono hkeeps⟩
      · exact hfiles f hf

end Calls

/-! ## What has been installed -/

/-- A path below the destination is followed to the place of what it leads to. -/
theorem Setting.follow (hs : Setting env root S R) (hext : Extends S C) (hsound : Sound S source)
    {y : Loc} (hC : Walks C true false R (body source) (R ++ y))
    (hdir : endsBlank source = true → C.isDir (R ++ y) = true) :
    Walks C true false (start env.view (targetOf root source)) (steps (targetOf root source))
      (R ++ y) := by
  rw [start, if_pos (hasRoot_targetOf hs.rooted hsound.absolute),
    hsound.pushed.steps]
  refine ((leads_body hs.leads).mono hext).trans ?_
  rw [steps]
  split
  · exact hC.trans (.curDir (hdir (by assumption)) (.done _))
  · rw [List.append_nil]
    exact hC

/-- After a run that ends well, with all of its calls and links sound, every link below
the destination leads to an entry below it, and every path that was asked for leads
there to an entry like the one it leads to in the source tree. -/
theorem installFiles_faithful (env : Env) (root : OsString) (fuel : Nat) (tree : Tree) (R : Loc)
    (flags : Flags) (files : List OsString) (w : World) (hs : Setting env root tree R)
    (hrun : installFiles env root fuel files (World.start tree flags) = some (.ok (), w))
    (hsound : SoundLog tree w.log) :
    (∀ dir name text, w.tree.node (R ++ (dir ++ [name])) = some (.link text) →
      ∃ y n, Walks w.tree true false (linkBase (R ++ dir) text) (steps text) (R ++ y) ∧
        w.tree.node (R ++ y) = some n ∧ n.isLink = false) ∧
    ∀ file ∈ files, ∃ y n n',
      Walks tree true false (start env.view file) (steps file) y ∧ tree.node y = some n ∧
      Walks w.tree true false (start env.view (targetOf root file)) (steps (targetOf root file))
        (R ++ y) ∧
      w.tree.node (R ++ y) = some n' ∧ n.Like n' := by
  obtain ⟨hext, hmirror, hfiles⟩ := installFiles_cloned hs (mirror_empty hs.dir hs.empty) hrun hsound
  have hR : w.tree.isDir R = true := hext.isDir hs.dir
  constructor
  · intro dir name text hlink
    obtain ⟨y, _, hC⟩ := hmirror.link dir name text hlink
    rw [← List.append_assoc] at hlink
    obtain ⟨hd, hcases⟩ := hC.name_cases
    obtain ⟨n, hn, hno⟩ := hC.ends hd
    refine ⟨y, n, ?_, hn, hno⟩
    rcases hcases with ⟨e, he, hlinkless, _⟩ | ⟨text', htext, _, hgo⟩ | ⟨_, _, hf, _⟩ | ⟨_, hmissing, _⟩
    · rw [hlink] at he
      obtain rfl := Option.some.inj he
      cases hlinkless
    · rw [hlink] at htext
      obtain rfl : text = text' := Node.link.inj (Option.some.inj htext)
      exact hgo
    · cases hf
    · cases hmissing
  · intro file hfile
    obtain ⟨hsource, y, hS, hC⟩ := hfiles file hfile
    obtain ⟨y', hy⟩ := hsource.leads
    obtain rfl := hS.unique (leads_body hy)
    obtain ⟨n', hn', hno⟩ := hC.ends hR
    obtain ⟨n, hn, hmatch⟩ := hmirror.entry y n' hn'
    have hlike : n.Like n' := hmatch.like hno
    refine ⟨y, n, n', ?_, hn, hs.follow hext hsource hC fun hend => ?_, hn', hlike⟩
    · rw [start, if_pos hsource.absolute]
      exact hy
    · rcases walks_body hy with ⟨hnoEnd, _⟩ | ⟨_, _, hdir⟩
      · rw [hend] at hnoEnd
        cases hnoEnd
      · rw [Tree.isDir, hn] at hdir
        rw [Tree.isDir, hn']
        exact hlike.isDir.trans hdir

namespace Sample

theorem calm_steady : calm.Steady :=
  ⟨fun _ _ => rfl, fun _ _ _ _ _ h => by cases h⟩

/-- A link two directories below the root to a file there. -/
def deep : Tree := .ofEntries [
  ([ascii "r"], .dir 0o755), ([ascii "x"], .file 0o644 [1]), ([ascii "a"], .dir 0o755),
  ([ascii "a", ascii "b"], .dir 0o755), ([ascii "a", ascii "b", ascii "l"], .link (ascii "/x"))]

theorem calm_setting {entries : List (Loc × Node)}
    (hwalk : (Tree.ofEntries entries).walk true false 0 [] (steps (ascii "/r")) = .ok [ascii "r"])
    (hdir : (Tree.ofEntries entries).isDir [ascii "r"] = true)
    (hempty : ∀ entry ∈ entries, ¬ (entry.1.length = 2 ∧ entry.1.head? = some (ascii "r"))) :
    Setting calm (ascii "/r") (.ofEntries entries) [ascii "r"] where
  steady := calm_steady
  rooted := rfl
  leads := walk_sound hwalk
  dir := hdir
  empty name := by
    refine ofEntries_node (by simp) fun entry hentry heq => hempty entry hentry ?_
    rw [heq]
    exact ⟨rfl, rfl⟩

/-- A path without `..` or a separator at its end. -/
theorem sound_of_plain {S : Tree} {source : OsString} {y : Loc} (habsolute : hasRoot source = true)
    (hsingle : hasRoot (source.drop 1) = false)
    (hleads : S.walk true false 9 [] (steps source) = .ok y) (hup : .parentDir ∉ body source)
    (hend : endsBlank source = true → S.walk false false 9 [] (body source) = .ok [] ) :
    Sound S source where
  absolute := habsolute
  single := hsingle
  leads := ⟨y, walk_sound hleads⟩
  stays := staysBelow_of_not_mem hup
  notLink hblank y n hwalk hn := by
    obtain rfl := (walk_sound (hend hblank)).unique hwalk
    obtain ⟨mode, hroot⟩ := S.root
    rw [hroot] at hn
    obtain rfl := Option.some.inj hn
    rfl

end Sample

theorem installFiles_linked :
    ∃ w, installFiles Sample.calm (ascii "/r") 9 [ascii "/l"]
        (World.start Sample.linked ⟨true, true⟩) = some (.ok (), w) ∧
      ∃ y n n', Walks Sample.linked true false [] (steps (ascii "/l")) y ∧
        Sample.linked.node y = some n ∧
        Walks w.tree true false [] (steps (ascii "/r/l")) (ascii "r" :: y) ∧
        w.tree.node (ascii "r" :: y) = some n' ∧ n.Like n' := by
  have hall : ((installFiles Sample.calm (ascii "/r") 9 [ascii "/l"]
      (World.start Sample.linked ⟨true, true⟩)).any fun out =>
        decide (out.1 = .ok ()) && decide (out.2.log = [
          .clonePath (ascii "/l") (ascii "/r/l"), .clonePath (ascii "/") (ascii "/r/"),
          .clonePath (ascii "/f") (ascii "/r/f"), .clonePath (ascii "/") (ascii "/r/"),
          .clonePathCopy (ascii "/f") (ascii "/r/f"),
          .clonePathSymlink (ascii "/f") (ascii "/r/l"),
          .lnRSymlink (ascii "/r/f") (ascii "/r/l")])) = true := by
    decide +kernel
  obtain ⟨⟨r, w⟩, hrun, hout⟩ := (Option.any_eq_true _ _).mp hall
  simp only [Bool.and_eq_true, decide_eq_true_eq] at hout
  obtain ⟨rfl, hlog⟩ := hout
  have hs : Setting Sample.calm (ascii "/r") Sample.linked [ascii "r"] :=
    Sample.calm_setting (by decide +kernel) (by decide +kernel) (by decide +kernel)
  have hroot : Walks Sample.linked true false [] (body (ascii "/")) [] :=
    walk_sound (show Sample.linked.walk true false 9 [] (body (ascii "/")) = .ok [] by
      decide +kernel)
  have hsound : SoundLog Sample.linked w.log := by
    refine ⟨fun source target hline => ?_, fun source path target hline hlink => ?_⟩
    · rw [hlog] at hline
      simp at hline
      rcases hline with ⟨rfl, _⟩ | ⟨rfl, _⟩ | ⟨rfl, _⟩ | ⟨rfl, _⟩
      · exact Sample.sound_of_plain (y := [ascii "f"]) rfl rfl (by decide +kernel)
          (by decide +kernel) (by decide +kernel)
      · exact Sample.sound_of_plain (y := []) rfl rfl (by decide +kernel) (by decide +kernel)
          (by decide +kernel)
      · exact Sample.sound_of_plain (y := [ascii "f"]) rfl rfl (by decide +kernel)
          (by decide +kernel) (by decide +kernel)
      · exact Sample.sound_of_plain (y := []) rfl rfl (by decide +kernel) (by decide +kernel)
          (by decide +kernel)
    · rw [hlog] at hline hlink
      simp at hline hlink
      obtain ⟨rfl, rfl⟩ := hlink
      rcases hline with ⟨rfl, _⟩ | ⟨_, h⟩ | ⟨_, h⟩ | ⟨_, h⟩
      · refine ⟨ascii "/", [], [], [.normal (ascii "f")], [], [], rfl, ?_, ?_, ⟨by decide, ?_⟩,
          .done [], hroot, rfl⟩
        · decide +kernel
        · decide +kernel
        · intro j hj
          cases hj
      · exact absurd h (by decide)
      · exact absurd h (by decide)
      · exact absurd h (by decide)
  obtain ⟨_, hfiles⟩ := installFiles_faithful Sample.calm (ascii "/r") 9 Sample.linked [ascii "r"]
    ⟨true, true⟩ [ascii "/l"] w hs hrun hsound
  exact ⟨w, hrun, hfiles (ascii "/l") List.mem_cons_self⟩

/-- The link comes out as `../x`, which is none of the entries made. -/
theorem installFiles_dangling :
    Setting Sample.calm (ascii "/r") Sample.deep [ascii "r"] ∧
    ∃ w, installFiles Sample.calm (ascii "/r") 9 [ascii "/a/b/l"]
        (World.start Sample.deep ⟨true, true⟩) = some (.ok (), w) ∧
      w.tree.node [ascii "r", ascii "a", ascii "b", ascii "l"] = some (.link (ascii "../x")) ∧
      ∀ y, ¬ Walks w.tree true false (linkBase [ascii "r", ascii "a", ascii "b"] (ascii "../x"))
        (steps (ascii "../x")) y := by
  refine ⟨Sample.calm_setting (by decide +kernel) (by decide +kernel) (by decide +kernel), ?_⟩
  have hall : ((installFiles Sample.calm (ascii "/r") 9 [ascii "/a/b/l"]
      (World.start Sample.deep ⟨true, true⟩)).any fun out =>
        decide (out.1 = .ok ()) &&
        (decide (out.2.tree.node [ascii "r", ascii "a", ascii "b", ascii "l"] =
          some (.link (ascii "../x"))) &&
        decide (out.2.tree.node [ascii "r", ascii "a", ascii "x"] = none))) = true := by
    decide +kernel
  obtain ⟨⟨r, w⟩, hrun, hout⟩ := (Option.any_eq_true _ _).mp hall
  simp only [Bool.and_eq_true, decide_eq_true_eq] at hout
  obtain ⟨rfl, hlink, hnone⟩ := hout
  refine ⟨w, hrun, hlink, fun y hy => ?_⟩
  have hsteps : steps (ascii "../x") = [.parentDir, .normal (ascii "x")] := by decide
  rw [hsteps] at hy
  cases hy with
  | parentDir _ hrest =>
      rcases hrest.name_cases with ⟨_, ⟨n, hn, _⟩ | ⟨text, hn, _⟩ | ⟨_, _, hf, _⟩ | ⟨_, hm, _⟩⟩
      · cases hnone.symm.trans hn
      · cases hnone.symm.trans hn
      · cases hf
      · cases hm

end File
end DracutInstall

/-
The image that a run makes in an empty directory.

It is seen as the file system it becomes, with its directory as the root.  What `ldd`
has collected is there with the content it has on the host, and so is, for every object
that was read, each name it needs under one of its candidates; with modules, it is
every file that the arguments need.
-/
import DracutInstall.File.CloneImage
import DracutInstall.Install.Modules

namespace DracutInstall
namespace Install

open ByteCodec Rust UnixPath FileTree WorkList Elfkit File

variable {host : Host} {root path : OsString} {fuel : Nat} {S : Tree} {R : Loc}

/-- Nothing that has a canonical spelling is below an empty directory. -/
theorem not_inDest (hs : Setting host.env root S R) (cache : Option LdsoCache)
    {p q : OsString} (h : (host.fileSystem S).canonicalizeDir p = some q) :
    (lddOn (host.fileSystem S) cache root).inDest q = false := by
  obtain ⟨names, name, hnames, hname, rfl, _⟩ := FileSystem.canonicalizeDir_eq_some h
  have hall : ∀ x ∈ names ++ [name], EntryName x := forall_entryName_concat hnames hname
  by_contra hdest
  rw [Bool.not_eq_false] at hdest
  obtain ⟨n, hn⟩ := FileSystem.onTree_pathExists.mp hdest
  have hstatus : S.status host.env.view true (targetOf root (absolute (names ++ [name]))) = .ok n := by
    rw [← status_append_absolute hs.rooted hall]
    exact hn
  obtain ⟨loc, hwalk, _⟩ := Tree.status_ok hstatus
  have habs : hasRoot (absolute (names ++ [name])) = true := hasRoot_cons _
  rw [Pushed.steps (fun _ => hasRoot_drop_absolute hall), steps_absolute hall, if_neg (by simp)] at hwalk
  have hbelow := hs.walks_target (.refl S) habs (by simp) hwalk
  obtain ⟨first, rest, hcs⟩ : ∃ first rest, (names ++ [name]).map Component.normal =
      .normal first :: rest := by
    cases names with
    | nil => exact ⟨name, [], rfl⟩
    | cons x names => exact ⟨x, _, rfl⟩
  rw [hcs] at hbelow
  have hempty := hs.empty first
  cases hbelow with
  | entry _ hnode _ _ => exact nomatch hempty.symm.trans hnode
  | link _ hnode _ _ => exact nomatch hempty.symm.trans hnode
  | last _ hnode _ => exact nomatch hempty.symm.trans hnode
  | new _ _ hmissing => cases hmissing

section Image

variable {cache : Option LdsoCache} {files args res : List OsString} {flags : Flags}
  {schedule : List (Choice Ldd.Iter)} {w : World}

/-- When `install_files_ldd` returns `Ok` into an empty directory, with all calls and
links sound, the image has every canonical argument and every object collected, as on the host.
Where the run of `ldd` meets no dead path in `visited` and no dead listing, each name of
an object that `recurse` returned `Ok` for is in the image under one of its candidates;
what has no canonical spelling, and is there already by its string, is left aside. -/
theorem installFilesLdd_image {s : (lddOn (host.fileSystem S) cache root).State}
    (hs : Setting host.env root S R)
    (hran : (lddOn (host.fileSystem S) cache root).Ran files args schedule s)
    (hres : res.Perm (Ldd.collected s))
    (hinstall : installFiles host.env root fuel res (World.start S flags) = some (.ok (), w))
    (hsound : SoundLog S w.log) :
    ∃ hR : w.tree.isDir R = true,
    (∀ path, path ∈ args ∨ path ∈ Ldd.collected s → InImage S (w.tree.below R hR) path) ∧
    (Meets (lddOn (host.fileSystem S) cache root).system
        (lddOn (host.fileSystem S) cache root).LiveHits
        ((lddOn (host.fileSystem S) cache root).start args) schedule →
      (∀ v ∈ s.workers, (lddOn (host.fileSystem S) cache root).LiveListing v.item) →
      ∀ v ∈ s.workers, v.prog = .done (.returned v.item.path (.ok ())) →
        ∀ sc, (host.fileSystem S).scan v.item.path v.item.lpaths = .ok sc →
          ∀ dep ∈ sc.deps, ∃ c,
            Ldd.Candidate (lddOn (host.fileSystem S) cache root) sc.lpaths dep c ∧
            (InImage S (w.tree.below R hR) ((host.fileSystem S).spelling c) ∨
              (host.fileSystem S).canonicalizeDir c = none ∧
                (host.fileSystem S).pathExists (root ++ c) = true)) := by
  obtain ⟨hR, himage⟩ := installFiles_image hs hinstall hsound
  have hcollected (path : OsString) (hpath : path ∈ Ldd.collected s) :
      InImage S (w.tree.below R hR) path := himage path (hres.mem_iff.mpr hpath)
  refine ⟨hR, ?_, ?_⟩
  · rintro path (harg | hpath)
    · have hdest := not_inDest hs cache (hran.args_settled path harg)
      exact hcollected path (hran.mem_collected.mpr ⟨hran.args_taken harg, hdest⟩)
    · exact hcollected path hpath
  · intro hhits hlisting v hv hok sc hscan dep hdep
    obtain ⟨c, hc, _, hprovided⟩ := provided_of_ok hran hres hhits hv (hlisting v hv) hok hscan hdep
    refine ⟨c, hc, ?_⟩
    rcases hprovided with hmem | hdest
    · exact .inl (himage _ hmem)
    · have hbelow : (lddOn (host.fileSystem S) cache root).inDest
          ((host.fileSystem S).spelling c) = true := hdest
      cases hcanon : (host.fileSystem S).canonicalizeDir c with
      | none =>
          rw [FileSystem.spelling, hcanon] at hbelow
          exact .inr ⟨rfl, hbelow⟩
      | some q =>
          rw [FileSystem.spelling, hcanon] at hbelow
          cases hbelow.symm.trans (not_inDest hs cache hcanon)

end Image

/-- When `install_modules` returns `Ok` into an empty directory, with all calls and links
sound, the image has every module that the arguments need, as on the host. -/
theorem installModules_image {M : Type} {host : ModuleHost M} {ctx : RunContext}
    {kmod : KmodContext M} {depth : Nat} {args : List OsString} {flags : Flags}
    {r : Outcome InstallModulesError Unit} {w : World}
    (hs : Setting host.env ctx.destrootdir S R)
    (hkmod : host.contextNewWith ctx.kerneldir = some kmod) (hk : kmod.toKmod.ByPath)
    (hrun : InstallModules host ctx depth fuel args (World.start S flags) r w) (hr : r = .ok ())
    (hsound : SoundLog S w.log) :
    ∃ hR : w.tree.isDir R = true, ∀ path ∈ argsNeed host ctx kmod S args,
      InImage S (w.tree.below R hR) path := by
  cases hrun with
  | noContext _ => cases hr
  | unwound _ _ => cases hr
  | failed _ _ => cases hr
  | @installed kmod' visited files r' _ hkmod' hvisit hfiles hinstall =>
      cases hkmod.symm.trans hkmod'
      cases r' with
      | ok u =>
          obtain ⟨hR, himage⟩ := installFiles_image hs hinstall hsound
          exact ⟨hR, fun path hpath => himage path ((mem_files hk hvisit hfiles).mpr hpath)⟩
      | err e => cases hr
      | panic => cases hr

namespace Sample

open File.Sample

/-- The calls are those of the paths given, and make no link. -/
def plainLine (paths : List OsString) : Line → Bool
  | .clonePath source _ => paths.contains source
  | .clonePathSymlink _ _ => false
  | _ => true

theorem plain_sound {S : Tree} {paths : List OsString} (hpaths : ∀ path ∈ paths, Sound S path)
    {log : List Line} (h : log.all (plainLine paths) = true) : SoundLog S log := by
  have hline := List.all_eq_true.mp h
  constructor
  · intro source target hmem
    exact hpaths source (List.contains_iff_mem.mp (hline _ hmem))
  · intro source path target _ hlink
    cases hline _ hlink

theorem lib_setting : Setting calm (ascii "/r") lib [ascii "r"] :=
  calm_setting (by decide +kernel) (by decide +kernel) (by decide +kernel)

def libPaths : List OsString :=
  [ascii "/", ascii "/a", ascii "/lib64", ascii "/lib64/dyninst", ascii "/lib64/dyninst/x"]

theorem lib_paths : ∀ path ∈ libPaths, Sound lib path := by
  intro path hpath
  simp only [libPaths, List.mem_cons, List.not_mem_nil, or_false] at hpath
  rcases hpath with rfl | rfl | rfl | rfl | rfl
  · exact sound_of_plain (y := []) rfl rfl (by decide +kernel) (by decide +kernel)
      (by decide +kernel)
  · exact sound_of_plain (y := [ascii "a"]) rfl rfl (by decide +kernel) (by decide +kernel)
      (by decide +kernel)
  · exact sound_of_plain (y := [ascii "lib64"]) rfl rfl (by decide +kernel) (by decide +kernel)
      (by decide +kernel)
  · exact sound_of_plain (y := [ascii "lib64", ascii "dyninst"]) rfl rfl (by decide +kernel)
      (by decide +kernel) (by decide +kernel)
  · exact sound_of_plain (y := [ascii "lib64", ascii "dyninst", ascii "x"]) rfl rfl
      (by decide +kernel) (by decide +kernel) (by decide +kernel)

theorem lib_logged :
    ∃ w, installFiles calm (ascii "/r") 9 [ascii "/a", ascii "/lib64/dyninst/x"]
        (World.start lib ⟨true, true⟩) = some (.ok (), w) ∧ SoundLog lib w.log := by
  obtain ⟨w, hrun, hlog⟩ : ∃ w, installFiles calm (ascii "/r") 9
        [ascii "/a", ascii "/lib64/dyninst/x"] (World.start lib ⟨true, true⟩) = some (.ok (), w) ∧
      w.log.all (plainLine libPaths) = true :=
    Process.exists_ok_of_any (by decide +kernel)
  exact ⟨w, hrun, plain_sound lib_paths hlog⟩

theorem modules_setting : Setting calm (ascii "/r") modules [ascii "r"] :=
  calm_setting (by decide +kernel) (by decide +kernel) (by decide +kernel)

theorem modules_paths : ∀ path ∈ [ascii "/", ascii "/a", ascii "/b"], Sound modules path := by
  intro path hpath
  simp only [List.mem_cons, List.not_mem_nil, or_false] at hpath
  rcases hpath with rfl | rfl | rfl
  · exact sound_of_plain (y := []) rfl rfl (by decide +kernel) (by decide +kernel)
      (by decide +kernel)
  · exact sound_of_plain (y := [ascii "a"]) rfl rfl (by decide +kernel) (by decide +kernel)
      (by decide +kernel)
  · exact sound_of_plain (y := [ascii "b"]) rfl rfl (by decide +kernel) (by decide +kernel)
      (by decide +kernel)

theorem modules_logged :
    ∃ w, InstallModules moduleHost context 3 9 [ascii "m.ko"] (World.start modules ⟨true, true⟩)
        (.ok ()) w ∧ SoundLog modules w.log := by
  obtain ⟨w, hrun, hlog⟩ : ∃ w, installFiles calm (ascii "/r") 9 [ascii "/b", ascii "/a"]
        (World.start modules ⟨true, true⟩) = some (.ok (), w) ∧
      w.log.all (plainLine [ascii "/", ascii "/a", ascii "/b"]) = true :=
    Process.exists_ok_of_any (by decide +kernel)
  have hkmod : moduleHost.contextNewWith context.kerneldir = some kmod := rfl
  have hinstall : installFiles moduleHost.env context.destrootdir 9 [ascii "/b", ascii "/a"]
      (World.start modules ⟨true, true⟩) = some (.ok (), w) := hrun
  exact ⟨w, InstallModules.installed (r := .ok ()) hkmod modules_visited rfl hinstall,
    plain_sound modules_paths hlog⟩

end Sample

theorem lib_image :
    ∃ schedule s w, Sample.libLdd.Ran [ascii "/a"] [ascii "/a"] schedule s ∧
      installFiles Sample.host.env (ascii "/r") 9 (Ldd.collected s)
        (World.start Sample.lib ⟨true, true⟩) = some (.ok (), w) ∧
      ∃ hR : w.tree.isDir [ascii "r"] = true,
      (∀ path, path ∈ [ascii "/a"] ∨ path ∈ Ldd.collected s →
        InImage Sample.lib (w.tree.below [ascii "r"] hR) path) ∧
      ∀ v ∈ s.workers, v.prog = .done (.returned v.item.path (.ok ())) →
        ∀ sc, Sample.libLdd.fs.scan v.item.path v.item.lpaths = .ok sc → ∀ dep ∈ sc.deps, ∃ c,
          Ldd.Candidate Sample.libLdd sc.lpaths dep c ∧
          (InImage Sample.lib (w.tree.below [ascii "r"] hR) (Sample.libLdd.fs.spelling c) ∨
            Sample.libLdd.fs.canonicalizeDir c = none ∧
              Sample.libLdd.fs.pathExists (ascii "/r" ++ c) = true) := by
  obtain ⟨schedule, s, hran, hres, hhits⟩ := Sample.lib_ran
  obtain ⟨w, hrun, hsound⟩ := Sample.lib_logged
  rw [← hres] at hrun
  obtain ⟨hR, hcopied, hclosed⟩ := @installFilesLdd_image Sample.host (ascii "/r") 9 Sample.lib
    [ascii "r"] none [ascii "/a"] [ascii "/a"] (Ldd.collected s) ⟨true, true⟩ schedule w s
    Sample.lib_setting hran (.refl _) hrun hsound
  refine ⟨schedule, s, w, hran, hrun, hR, hcopied, hclosed hhits ?_⟩
  intro v _ sc _ dep _ _ vals hvals
  cases hvals

theorem modules_image :
    ∃ w, InstallModules Sample.moduleHost Sample.context 3 9 [ascii "m.ko"]
        (World.start Sample.modules ⟨true, true⟩) (.ok ()) w ∧
      ∃ hR : w.tree.isDir [ascii "r"] = true,
      ∀ path ∈ argsNeed Sample.moduleHost Sample.context Sample.kmod Sample.modules [ascii "m.ko"],
        InImage Sample.modules (w.tree.below [ascii "r"] hR) path := by
  obtain ⟨w, hrun, hsound⟩ := Sample.modules_logged
  exact ⟨w, hrun, installModules_image Sample.modules_setting rfl Sample.kmod_byPath hrun rfl hsound⟩

end Install
end DracutInstall

/-
`install_files_ldd`: the objects that `ldd` finds are put below the destination.

`ldd` looks at the tree as it is when the process starts, `install_files` works on
it afterwards.  How the workers of `ldd` interleave is open, and so is the order of
the vector.
-/
import DracutInstall.Elfkit.LddUnique
import DracutInstall.Elfkit.LddEnds
import DracutInstall.Elfkit.TreeFileSystem
import DracutInstall.File.InstallNeeds

namespace DracutInstall
namespace Install

open ByteCodec Rust UnixPath FileTree WorkList Elfkit File

/-- The system a process runs on. -/
structure Host where
  env : Env
  devices : Devices
  byteOrder : ByteOrder

/-- The file system `ldd` looks at. -/
def Host.fileSystem (host : Host) (t : Tree) : FileSystem :=
  .onTree host.env.view host.devices t

/-- `File::open` and `read_to_end`. -/
def readToEnd (fs : FileSystem) (p : OsString) : Outcome IoErrorKind (List UInt8) :=
  match fs.openFile p with
  | .ok (.file bytes) => .ok bytes
  | .ok .directory => .err .isADirectory
  | .error e => .err e

/-- `LdsoCache::read_ld_so_cache(sysroot).ok()` -/
def Host.cache (host : Host) (fs : FileSystem) : Outcome IoErrorKind (Option LdsoCache) :=
  match LdsoCache.readLdSoCache host.byteOrder (readToEnd fs) [sep] with
  | .ok cache => .ok (some cache)
  | .err _ => .ok none
  | .panic => .panic

/-- `Ldd::new` in `ldd`. -/
def lddOn (fs : FileSystem) (cache : Option LdsoCache) (destPath : OsString) : Ldd :=
  { fs, ldSoCache := cache, defaultLibdir := standardLibdirs, destPath }

/-- How `ldd` can end: with a vector; or it unwinds, because the cache is malformed, an
argument has no canonical directory or a worker has panicked. -/
inductive LddEnds (host : Host) (t : Tree) (root : OsString) (files : List OsString) :
    Option (List OsString) → Prop
  | badCache (hcache : host.cache (host.fileSystem t) = .panic) : LddEnds host t root files none
  | notCanonical {cache : Option LdsoCache} (hcache : host.cache (host.fileSystem t) = .ok cache)
      (hfiles : files.mapM (host.fileSystem t).canonicalizeDir = none) :
      LddEnds host t root files none
  | panicked {cache : Option LdsoCache} {args : List OsString} {schedule : List (Choice Ldd.Iter)}
      {s : (lddOn (host.fileSystem t) cache root).State}
      (hcache : host.cache (host.fileSystem t) = .ok cache)
      (hran : (lddOn (host.fileSystem t) cache root).Finished files args schedule s)
      (hout : ∃ w ∈ s.workers, Ldd.outOf w.prog = some .panicked) :
      LddEnds host t root files none
  | returned {cache : Option LdsoCache} {schedule : List (Choice Ldd.Iter)} {res : List OsString}
      (hcache : host.cache (host.fileSystem t) = .ok cache)
      (hres : (lddOn (host.fileSystem t) cache root).Returns files schedule res) :
      LddEnds host t root files (some res)

/-- `install_files_ldd` -/
inductive InstallFilesLdd (host : Host) (root : OsString) (fuel : Nat) (files : List OsString)
    (w : World) : Outcome CloneError Unit → World → Prop
  | unwound (hldd : LddEnds host w.tree root files none) :
      InstallFilesLdd host root fuel files w .panic w
  | installed {res : List OsString} {r : Outcome CloneError Unit} {w' : World}
      (hldd : LddEnds host w.tree root files (some res))
      (hinstall : installFiles host.env root fuel res w = some (r, w')) :
      InstallFilesLdd host root fuel files w r w'

/-! ## Nothing but what the arguments depend on -/

section Files

variable {host : Host} {root : OsString} {fuel : Nat} {files : List OsString} {w w' : World}
  {r : Outcome CloneError Unit}

/-- An object that one of the arguments depends on, by way of others or not. -/
def Required (ldd : Ldd) (files : List OsString) (path : OsString) : Prop :=
  ∃ args, files.mapM ldd.fs.canonicalizeDir = some args ∧ ∃ arg ∈ args, ∃ item : Item,
    item.path = path ∧ Relation.ReflTransGen ldd.DependsOn ⟨arg, ∅⟩ item

theorem required_of_returned {ldd : Ldd} {schedule : List (Choice Ldd.Iter)} {res : List OsString}
    (h : ldd.Returns files schedule res) : ∀ path ∈ res, Required ldd files path := by
  obtain ⟨args, s, hran, hres⟩ := h
  intro path hpath
  have hreached := hran.reached
  obtain ⟨v, hv, rfl⟩ := hreached.of_collected (hres.mem_iff.mp hpath)
  obtain ⟨arg, harg, hchain⟩ :=
    hreached.linked v.item (List.mem_append_right _ (List.mem_map_of_mem hv))
  exact ⟨args, hran.canonical, arg, harg, v.item, rfl,
    Relation.ReflTransGen.mono (fun _ _ hstep => hstep.2) _ _ hchain⟩

theorem InstallFilesLdd.keepsKinds (h : InstallFilesLdd host root fuel files w r w') :
    Tree.KeepsKinds w.tree w'.tree := by
  cases h with
  | unwound _ => exact .refl _
  | installed _ hinstall => exact installFiles_keepsKinds hinstall

/-- However the workers interleave, whatever the calls are answered and the run ends in:
each thing that is made is there, and is the target of a path that a required object
needs. -/
theorem InstallFilesLdd.required {S : Tree} {flags : Flags}
    (h : InstallFilesLdd host root fuel files (World.start S flags) r w') :
    ∀ m ∈ w'.made, m.Present host.env.view w'.tree ∧ ∃ cache path p,
      host.cache (host.fileSystem S) = .ok cache ∧
      Required (lddOn (host.fileSystem S) cache root) files path ∧
      Needs host.env.view w'.tree path p ∧ MadeFor host.env.view root w'.tree p m := by
  cases h with
  | unwound _ => exact fun m hm => absurd hm List.not_mem_nil
  | @installed res _ _ hldd hinstall =>
      cases hldd with
      | @returned cache _ _ hcache hres =>
          intro m hm
          obtain ⟨hpresent, path, hpath, p, hneeds, hfor⟩ := installFiles_made hinstall hm
          exact ⟨hpresent, cache, path, p, hcache, required_of_returned hres path hpath, hneeds,
            hfor⟩

/-! ## All that the arguments depend on -/

section Closed

variable {t t' : Tree} {v : Tree.View} {p : OsString} {n : Node}

theorem hasRoot_drop_absolute {names : List OsString} (hnames : ∀ name ∈ names, EntryName name) :
    hasRoot ((absolute names).drop 1) = false := by
  show hasRoot ([sep].intercalate names) = false
  cases names with
  | nil => rfl
  | cons name names =>
      obtain ⟨hne, hsep, _⟩ := hnames name List.mem_cons_self
      obtain ⟨b, rest, rfl⟩ := List.exists_cons_of_ne_nil hne
      have hb : b ≠ sep := by
        rintro rfl
        exact hsep List.mem_cons_self
      cases names with
      | nil => simp [hasRoot, List.intercalate, hb]
      | cons name' names => simp [hasRoot, List.intercalate, hb]

/-- The string that `ldd` looks for below the destination names the target of the path. -/
theorem status_append_absolute (hroot : hasRoot root = true) {names : List OsString}
    (hnames : ∀ name ∈ names, EntryName name) (follow : Bool) :
    t.status v follow (root ++ absolute names) =
      t.status v follow (targetOf root (absolute names)) := by
  have hpath : hasRoot (root ++ absolute names) = true := by
    obtain ⟨rest, rfl⟩ := exists_of_hasRoot hroot
    exact hasRoot_cons _
  have habs : hasRoot (absolute names) = true := hasRoot_cons _
  have htarget := hasRoot_targetOf hroot habs
  have hsteps : steps (root ++ absolute names) = steps (targetOf root (absolute names)) := by
    rw [Pushed.steps (fun _ => hasRoot_drop_absolute hnames), absolute, steps_sep_cons, steps,
      body_append_sep, endsBlank_append_sep, List.append_assoc]
    rfl
  rw [Tree.status, Tree.status, Tree.lookup, Tree.lookup, if_neg (ne_nil_of_hasRoot hpath),
    if_neg (ne_nil_of_hasRoot htarget), Tree.start, Tree.start, if_pos hpath, if_pos htarget, hsteps]

/-- The path is below the destination: its target is there, or something under the
string that `ldd` looks for.  What has no parent is not cloned. -/
def Installed (v : Tree.View) (root : OsString) (t : Tree) (p : OsString) : Prop :=
  parent p = none ∨ (∃ n, t.status v false (targetOf root p) = .ok n) ∨
    ∃ n, t.status v true (root ++ p) = .ok n

/-- Of a path from the root on the target is there. -/
theorem Installed.target (hroot : hasRoot root = true) {names : List OsString} {name : OsString}
    (hnames : ∀ n ∈ names, EntryName n) (hname : EntryName name)
    (h : Installed v root t (absolute (names ++ [name]))) :
    ∃ n, t.status v false (targetOf root (absolute (names ++ [name]))) = .ok n := by
  rcases h with hnone | htarget | ⟨n, hfound⟩
  · rw [parent_absolute hnames hname] at hnone
    cases hnone
  · exact htarget
  · have hall : ∀ x ∈ names ++ [name], EntryName x := forall_entryName_concat hnames hname
    rw [status_append_absolute hroot hall] at hfound
    exact Tree.status_unfollowed hfound

end Closed

variable {cache : Option LdsoCache} {args res : List OsString} {schedule : List (Choice Ldd.Iter)}

/-- What was there for `ldd`, or is installed, is there in the end. -/
theorem installed_of_provided {p : OsString}
    (hprovided : (lddOn (host.fileSystem w.tree) cache root).Provided res p)
    (hinstall : installFiles host.env root fuel res w = some (.ok (), w')) :
    Installed host.env.view root w'.tree p := by
  by_cases hparent : parent p = none
  · exact .inl hparent
  · rcases hprovided.2 with hmem | hdest
    · exact .inr (.inl (installFiles_targets hinstall hmem hparent))
    · obtain ⟨n, hn⟩ := FileSystem.onTree_pathExists.mp hdest
      obtain ⟨n', hn', _⟩ := Tree.status_keepsKinds (installFiles_keepsKinds hinstall) hn
      exact .inr (.inr ⟨n', hn'⟩)

/-- A name of an object that `recurse` returned `Ok` for is provided. -/
theorem provided_of_ok {ldd : Ldd} {s : ldd.State} (h : ldd.Ran files args schedule s)
    (hres : res.Perm (Ldd.collected s))
    (hhits : Meets ldd.system ldd.LiveHits (ldd.start args) schedule)
    {v : Worker (Op ldd.fs) (Res ldd.fs) Item Ldd.Iter Ldd.Out} (hv : v ∈ s.workers)
    (hlisting : ldd.LiveListing v.item) (hok : v.prog = .done (.returned v.item.path (.ok ())))
    {sc : Scanned} (hscan : ldd.fs.scan v.item.path v.item.lpaths = .ok sc) {dep : OsString}
    (hdep : dep ∈ sc.deps) :
    ∃ c, Ldd.Candidate ldd sc.lpaths dep c ∧ ldd.Provided res (ldd.fs.spelling c) := by
  obtain ⟨out, hout, hworked⟩ := h.worked hv
  obtain rfl : Ldd.Out.returned v.item.path (.ok ()) = out := Prog.done.inj (hok.symm.trans hout)
  have hsub := visible_subset v.log
  generalize visible v.log = es at hworked hsub
  cases hworked with
  | searched _ hscan' hsearch =>
      obtain rfl := Outcome.ok.inj (hscan.symm.trans hscan')
      obtain ⟨es', hes', hsearched⟩ := hsearch.each rfl dep hdep
      exact h.provided_of_searched hres hhits hv (fun e he => hsub (hes' e he)) hsearched
        (hlisting sc hscan dep hdep)

/-- When `install_files_ldd` returns `Ok`, the target of every canonical argument is there,
whatever its calls were answered; and, where the run of `ldd` meets no dead path in `visited` and
no dead listing, each name of an object that `recurse` returned `Ok` for is below the
destination under one of its candidates. -/
theorem installFilesLdd_closed {s : (lddOn (host.fileSystem w.tree) cache root).State}
    (hroot : hasRoot root = true)
    (hran : (lddOn (host.fileSystem w.tree) cache root).Ran files args schedule s)
    (hres : res.Perm (Ldd.collected s))
    (hinstall : installFiles host.env root fuel res w = some (.ok (), w')) :
    (∀ arg ∈ args, ∃ n, w'.tree.status host.env.view false (targetOf root arg) = .ok n) ∧
    (Meets (lddOn (host.fileSystem w.tree) cache root).system
        (lddOn (host.fileSystem w.tree) cache root).LiveHits
        ((lddOn (host.fileSystem w.tree) cache root).start args) schedule →
      (∀ v ∈ s.workers, (lddOn (host.fileSystem w.tree) cache root).LiveListing v.item) →
      ∀ v ∈ s.workers, v.prog = .done (.returned v.item.path (.ok ())) →
        ∀ sc, (host.fileSystem w.tree).scan v.item.path v.item.lpaths = .ok sc →
          ∀ dep ∈ sc.deps, ∃ c,
            Ldd.Candidate (lddOn (host.fileSystem w.tree) cache root) sc.lpaths dep c ∧
            Installed host.env.view root w'.tree ((host.fileSystem w.tree).spelling c)) := by
  constructor
  · intro arg harg
    obtain ⟨names, name, hnames, hname, rfl, _⟩ :=
      FileSystem.canonicalizeDir_eq_some (hran.args_settled arg harg)
    apply Installed.target hroot hnames hname
    cases hdest : (lddOn (host.fileSystem w.tree) cache root).inDest (absolute (names ++ [name])) with
    | true =>
        obtain ⟨n, hn⟩ := FileSystem.onTree_pathExists.mp hdest
        obtain ⟨n', hn', _⟩ := Tree.status_keepsKinds (installFiles_keepsKinds hinstall) hn
        exact .inr (.inr ⟨n', hn'⟩)
    | false =>
        have hmem := hres.mem_iff.mpr (hran.mem_collected.mpr ⟨hran.args_taken harg, hdest⟩)
        refine .inr (.inl (installFiles_targets hinstall hmem ?_))
        rw [parent_absolute hnames hname]
        exact Option.some_ne_none _
  · intro hhits hlisting v hv hok sc hscan dep hdep
    obtain ⟨c, hc, hprovided⟩ := provided_of_ok hran hres hhits hv (hlisting v hv) hok hscan hdep
    exact ⟨c, hc, installed_of_provided hprovided hinstall⟩

end Files

namespace Sample

open Elfkit.Sample File.Sample

/-- An object and the library it needs beside the destination. -/
def lib : Tree := .ofEntries [
  ([ascii "r"], .dir 0o755), ([ascii "a"], .file 0o755 (needing "x")),
  ([ascii "lib64"], .dir 0o755), ([ascii "lib64", ascii "dyninst"], .dir 0o755),
  ([ascii "lib64", ascii "dyninst", ascii "x"], .file 0o755 (object [(0, 0)] []))]

def host : Host :=
  { env := calm, devices := fun _ => .error .permissionDenied, byteOrder := .little }

def libLdd : Ldd := lddOn (host.fileSystem lib) none (ascii "/r")

theorem lib_ran :
    ∃ schedule s, libLdd.Ran [ascii "/a"] [ascii "/a"] schedule s ∧
      Ldd.collected s = [ascii "/a", ascii "/lib64/dyninst/x"] ∧
      Meets libLdd.system libLdd.LiveHits (libLdd.start [ascii "/a"]) schedule := by
  obtain ⟨s, hran, hres⟩ := Ldd.Ran.exists_of_ended
    [.take 0 iter, .run 0, .run 0, .run 0, .run 0, .take 0 iter]
    (fun s : libLdd.State => decide (Ldd.collected s = [ascii "/a", ascii "/lib64/dyninst/x"]))
    (show [ascii "/a"].mapM libLdd.fs.canonicalizeDir = some [ascii "/a"] by decide +kernel)
    (by decide +kernel)
  exact ⟨_, s, hran, of_decide_eq_true hres, by decide +kernel⟩

theorem lib_cache : host.cache (host.fileSystem lib) = .ok none := by decide +kernel

theorem lib_installed :
    ∃ w, installFiles calm (ascii "/r") 9 [ascii "/a", ascii "/lib64/dyninst/x"]
        (World.start lib ⟨true, true⟩) = some (.ok (), w) ∧
      w.made = [.file (ascii "/r/a"), .dir (ascii "/r/lib64"), .dir (ascii "/r/lib64/dyninst"),
        .file (ascii "/r/lib64/dyninst/x")] :=
  Process.exists_ok_of_any (by decide +kernel)

theorem lib_run :
    ∃ w, InstallFilesLdd host (ascii "/r") 9 [ascii "/a"] (World.start lib ⟨true, true⟩)
      (.ok ()) w ∧ w.made.length = 4 := by
  obtain ⟨schedule, s, hran, hres, _⟩ := lib_ran
  obtain ⟨w, hrun, hmade⟩ := lib_installed
  have hldd : LddEnds host lib (ascii "/r") [ascii "/a"]
      (some [ascii "/a", ascii "/lib64/dyninst/x"]) :=
    .returned lib_cache ⟨_, s, hran, .of_eq hres.symm⟩
  exact ⟨w, .installed hldd hrun, by rw [hmade]; rfl⟩

end Sample

theorem lib_closed :
    ∃ schedule s w, Sample.libLdd.Ran [ascii "/a"] [ascii "/a"] schedule s ∧
      installFiles Sample.host.env (ascii "/r") 9 (Ldd.collected s)
        (World.start Sample.lib ⟨true, true⟩) = some (.ok (), w) ∧
      (∃ n, w.tree.status Sample.host.env.view false (targetOf (ascii "/r") (ascii "/a")) = .ok n) ∧
      ∀ v ∈ s.workers, v.prog = .done (.returned v.item.path (.ok ())) →
        ∀ sc, Sample.libLdd.fs.scan v.item.path v.item.lpaths = .ok sc → ∀ dep ∈ sc.deps, ∃ c,
          Ldd.Candidate Sample.libLdd sc.lpaths dep c ∧
          Installed Sample.host.env.view (ascii "/r") w.tree (Sample.libLdd.fs.spelling c) := by
  obtain ⟨schedule, s, hran, hres, hhits⟩ := Sample.lib_ran
  obtain ⟨w, hrun, _⟩ := Sample.lib_installed
  rw [← hres] at hrun
  obtain ⟨hargs, hclosed⟩ := @installFilesLdd_closed Sample.host (ascii "/r") 9 [ascii "/a"]
    (World.start Sample.lib ⟨true, true⟩) w none [ascii "/a"] (Ldd.collected s) schedule s
    (by decide) hran (.refl _) hrun
  refine ⟨schedule, s, w, hran, hrun, hargs _ List.mem_cons_self, hclosed hhits ?_⟩
  intro v _ sc _ dep _ _ vals hvals
  cases hvals

end Install
end DracutInstall

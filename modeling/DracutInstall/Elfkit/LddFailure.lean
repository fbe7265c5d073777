/-
What an object that cannot be loaded does to a run of `ldd`.

`recurse` unwraps the result of `Elf::load`, so it panics exactly on the objects
with a DYNAMIC section that `load` fails for.  Where every object can be loaded
no worker panics, and an object with dependencies takes no result away from a run
in which it has none.
-/
import DracutInstall.Elfkit.LoadFailure
import DracutInstall.Elfkit.LddSchedule

namespace DracutInstall
namespace Elfkit

open ByteCodec Rust UnixPath WorkList

/-! ## One object -/

/-- The DYNAMIC sections can be loaded one after the other. -/
def DynamicLoads (file : List UInt8) : List Nat → Elf → Prop
  | [], _ => True
  | i :: is, elf =>
      match elf.sections[i]? with
      | none => True
      | some sec =>
          if sec.header.shtype = SectionType.dynamic then
            ¬ elf.LoadFails file i ∧ DynamicLoads file is (elf.load file i).2
          else DynamicLoads file is elf

/-- The same by running `load`. -/
def dynamicLoadsOk (file : List UInt8) : List Nat → Elf → Bool
  | [], _ => true
  | i :: is, elf =>
      match elf.sections[i]? with
      | none => true
      | some sec =>
          if sec.header.shtype = SectionType.dynamic then
            decide ((elf.load file i).1 = .ok ()) && dynamicLoadsOk file is (elf.load file i).2
          else dynamicLoadsOk file is elf

section Object

variable {file : List UInt8} {path : OsString}

theorem dynamicLoads_iff {is : List Nat} {elf : Elf} (htyped : ∀ sec ∈ elf.sections, sec.Typed) :
    DynamicLoads file is elf ↔ dynamicLoadsOk file is elf = true := by
  induction is generalizing elf with
  | nil => exact iff_of_true trivial rfl
  | cons i is ih =>
      rw [DynamicLoads, dynamicLoadsOk]
      cases hsec : elf.sections[i]? with
      | none => exact iff_of_true trivial rfl
      | some sec =>
          have hi : i < elf.sections.length := (List.getElem?_eq_some_iff.mp hsec).1
          dsimp only
          split
          · rw [Bool.and_eq_true_iff, decide_eq_true_iff, elf.load_eq_ok_iff file i hi htyped,
              ih ((Elf.load_keeps file i htyped).typed htyped)]
          · exact ih htyped

theorem scanEntries_ok (hpath : parent path ≠ none) (sc : Scanned) (entries : List Dynamic) :
    ∃ sc', scanEntries path sc entries = .ok sc' := by
  induction entries generalizing sc with
  | nil => exact ⟨sc, rfl⟩
  | cons entry entries ih =>
      obtain ⟨origin, horigin⟩ := Option.ne_none_iff_exists'.mp hpath
      obtain ⟨sc', hsc'⟩ : ∃ sc', scanEntry path sc entry = .ok sc' := by
        simp only [scanEntry, horigin]
        split
        · split
          · exact ⟨_, rfl⟩
          · split
            · exact ⟨_, rfl⟩
            · exact ⟨_, rfl⟩
        · exact ⟨_, rfl⟩
      rw [scanEntries, hsc']
      exact ih sc'

theorem scanSections_panic_iff (hpath : parent path ≠ none) {is : List Nat} {elf : Elf}
    (his : ∀ i ∈ is, i < elf.sections.length) (htyped : ∀ sec ∈ elf.sections, sec.Typed)
    (sc : Scanned) :
    scanSections file path is elf sc = .panic ↔ dynamicLoadsOk file is elf = false := by
  induction is generalizing elf sc with
  | nil => exact iff_of_false (fun h => by cases h) (fun h => by cases h)
  | cons i is ih =>
      have hi := his i List.mem_cons_self
      have hsec := List.getElem?_eq_getElem hi
      rw [scanSections, dynamicLoadsOk, hsec]
      dsimp only
      split
      · rename_i htype
        have hkeep := Elf.load_keeps file i htyped
        have hrest : ∀ k ∈ is, k < (elf.load file i).2.sections.length := by
          intro k hk
          rw [hkeep.length]
          exact his k (List.mem_cons_of_mem _ hk)
        cases hload : elf.load file i with
        | mk r elf' =>
            rw [hload] at hrest hkeep
            cases r with
            | ok u =>
                obtain ⟨ds, hds⟩ := Elf.load_dynamicSection hsec htyped htype hload
                obtain ⟨sc', hsc'⟩ := scanEntries_ok hpath sc ds
                simp only [hds, hsc', Outcome.ok_bind]
                rw [ih hrest (hkeep.typed htyped) sc']
                simp
            | err e => simp
            | panic => simp
      · exact ih (fun k hk => his k (List.mem_cons_of_mem _ hk)) htyped sc

/-- The object can be read and loaded, or is not an object. -/
def FileSystem.Loads (fs : FileSystem) (path : OsString) : Prop :=
  ∀ bytes, fs.openFile path = .ok (.file bytes) → Elf.fromReader bytes ≠ .panic ∧
    ∀ elf, Elf.fromReader bytes = .ok elf →
      DynamicLoads bytes (List.range elf.sections.length) elf

/-- Whether the bytes can be read and loaded. -/
def bytesLoad (bytes : List UInt8) : Bool :=
  match Elf.fromReader bytes with
  | .ok elf => dynamicLoadsOk bytes (List.range elf.sections.length) elf
  | .err _ => true
  | .panic => false

theorem loads_of_bytesLoad {fs : FileSystem} (bytes : List UInt8)
    (hopen : fs.openFile path = .ok (.file bytes)) (h : bytesLoad bytes = true) :
    fs.Loads path := by
  intro bytes' hopen'
  obtain rfl : bytes = bytes' := Opened.file.inj (Except.ok.inj (hopen.symm.trans hopen'))
  rw [bytesLoad] at h
  constructor
  · intro hpanic
    rw [hpanic] at h
    cases h
  · intro elf helf
    rw [helf] at h
    exact (dynamicLoads_iff (Elf.fromReader_typed helf)).mpr h

theorem scan_panic_iff_of_ok {fs : FileSystem} {bytes : List UInt8} {elf : Elf}
    (hopen : fs.openFile path = .ok (.file bytes)) (helf : Elf.fromReader bytes = .ok elf)
    (lpaths : Finset OsString) :
    fs.scan path lpaths = .panic ↔ ¬ DynamicLoads bytes (List.range elf.sections.length) elf := by
  have htyped := Elf.fromReader_typed helf
  rw [dynamicLoads_iff htyped, Bool.not_eq_true, FileSystem.scan, hopen]
  dsimp only
  rw [helf]
  exact scanSections_panic_iff (fs.openFile_parent path bytes hopen)
    (fun i hi => List.mem_range.mp hi) htyped _

theorem scan_ne_panic {fs : FileSystem} (h : fs.Loads path) (lpaths : Finset OsString) :
    fs.scan path lpaths ≠ .panic := by
  intro hpanic
  cases hopen : fs.openFile path with
  | error kind =>
      rw [FileSystem.scan, hopen] at hpanic
      cases hpanic
  | ok opened =>
      cases opened with
      | directory =>
          rw [FileSystem.scan, hopen] at hpanic
          cases hpanic
      | file bytes =>
          obtain ⟨hread, hloads⟩ := h bytes hopen
          cases helf : Elf.fromReader bytes with
          | ok elf => exact (scan_panic_iff_of_ok hopen helf lpaths).mp hpanic (hloads elf helf)
          | err e =>
              rw [FileSystem.scan, hopen] at hpanic
              dsimp only at hpanic
              rw [helf] at hpanic
              cases e <;> cases hpanic
          | panic => exact hread helf

end Object

namespace Ldd

variable {ldd : Ldd}

theorem runs_recurse_none (ldd : Ldd) (iter : Iter) (path : OsString) (lpaths : Finset OsString) :
    (∃ es, Runs (ldd.recurse iter path lpaths) es none) ↔ ldd.fs.scan path lpaths = .panic := by
  rw [recurse]
  cases hscan : ldd.fs.scan path lpaths with
  | ok sc =>
      refine iff_of_false ?_ (fun h => by cases h)
      rintro ⟨es, h⟩
      obtain ⟨r, es₁, es₂, rfl, _, h⟩ := runs_bind.mp h
      cases (runs_pure.mp h).2
  | err e =>
      refine iff_of_false ?_ (fun h => by cases h)
      rintro ⟨es, h⟩
      cases (runs_pure.mp h).2
  | panic => exact iff_of_true ⟨[], runs_pure.mpr ⟨rfl, rfl⟩⟩ rfl

/-! ## Two runs -/

/-- The second system is the first with other contents for the bad objects, which
have no dependencies there. -/
structure Replaced (ldd ldd' : Ldd) (bad : OsString → Prop) : Prop where
  pathExists : ldd'.fs.pathExists = ldd.fs.pathExists
  canonicalize : ldd'.fs.canonicalize = ldd.fs.canonicalize
  openFile : ∀ path, ¬ bad path → ldd'.fs.openFile path = ldd.fs.openFile path
  ldSoCache : ldd'.ldSoCache = ldd.ldSoCache
  defaultLibdir : ldd'.defaultLibdir = ldd.defaultLibdir
  destPath : ldd'.destPath = ldd.destPath
  noDeps : ∀ path lpaths, bad path → ∃ sc, ldd'.fs.scan path lpaths = .ok sc ∧ sc.deps = []

section Replaced

variable {ldd' : Ldd} {bad : OsString → Prop}

theorem Replaced.inDest (h : Replaced ldd ldd' bad) (path : OsString) :
    ldd'.inDest path = ldd.inDest path := by
  rw [Ldd.inDest, Ldd.inDest, h.pathExists, h.destPath]

theorem Replaced.spelling (h : Replaced ldd ldd' bad) (path : OsString) :
    ldd'.fs.spelling path = ldd.fs.spelling path := by
  rw [FileSystem.spelling, FileSystem.spelling, FileSystem.canonicalizeDir,
    FileSystem.canonicalizeDir, h.canonicalize]

theorem Replaced.installable (h : Replaced ldd ldd' bad) (path : OsString) :
    ldd'.installable path = ldd.installable path := by
  rw [Ldd.installable, Ldd.installable, h.pathExists, h.inDest]

theorem Replaced.targets (h : Replaced ldd ldd' bad) (args dirs deps : List OsString) :
    ldd'.targets args dirs deps = ldd.targets args dirs deps := by
  have hspelling : ldd'.fs.spelling = ldd.fs.spelling := funext h.spelling
  have hcandidate (dep : OsString) : ldd'.candidate dep = ldd.candidate dep := by
    funext dir
    rw [candidate, candidate, hspelling]
  have hinst : ldd'.installable = ldd.installable := funext h.installable
  have hsettle (js : List OsString) : ldd'.settle args js = ldd.settle args js := by
    rw [settle, settle, hinst]
  have hlisted (dep : OsString) : ldd'.listed dep = ldd.listed dep := by
    rw [listed, listed, h.ldSoCache]
  induction deps with
  | nil => rfl
  | cons dep deps ih =>
      simp only [Ldd.targets, ih, hsettle, hcandidate, hlisted, hspelling, hinst, h.defaultLibdir]

/-- The targets of an object of the second system are targets in the first, when it
is searched for along the same directories. -/
theorem Replaced.itemTargets (h : Replaced ldd ldd' bad) {args : List OsString} {iter : Iter}
    {item item' : Item} (hpath : item.path = item'.path)
    (hdirs : ¬ bad item'.path → (ldd.scanned item).lpaths = (ldd'.scanned item').lpaths) :
    ∀ j ∈ ldd'.itemTargets args iter item', j ∈ ldd.itemTargets args iter item := by
  intro j hj
  rw [Ldd.itemTargets, h.inDest] at hj
  rw [Ldd.itemTargets, hpath]
  split at hj
  · cases hj
  · rename_i hdest
    rw [if_neg hdest]
    by_cases hbad : bad item'.path
    · obtain ⟨sc, hscan, hdeps⟩ := h.noDeps item'.path item'.lpaths hbad
      rw [scanned, hscan] at hj
      dsimp only at hj
      rw [hdeps] at hj
      cases hj
    · have hdeps : (ldd.scanned item).deps = (ldd'.scanned item').deps := by
        rw [scanned_deps hpath, scanned, scanned, FileSystem.scan, FileSystem.scan,
          h.openFile _ hbad]
      rw [hdirs hbad, hdeps, ← h.targets]
      exact hj

end Replaced

section Run

variable {files args : List OsString} {schedule : List (Choice Iter)} {s : ldd.State}

/-- Where every object loads, `ldd` returns. -/
theorem Finished.ran (h : ldd.Finished files args schedule s)
    (hloads : ∀ w ∈ s.workers, ldd.inDest w.item.path = true ∨ ldd.fs.Loads w.item.path) :
    ldd.Ran files args schedule s where
  toFinished := h
  calm := by
    intro w hw
    obtain ⟨out, hout, hworked⟩ := h.worked hw
    rw [hout]
    generalize visible w.log = es at hworked
    cases hworked with
    | skipped _ => exact fun h => nomatch h
    | failed _ _ => exact fun h => nomatch h
    | panicked hdest hscan =>
        rcases hloads w hw with h | h
        · rw [hdest] at h
          cases h
        · exact absurd hscan (scan_ne_panic h _)
    | searched _ _ _ => exact fun h => nomatch h

/-- `recurse` never panics on an object that can be read if and only if its DYNAMIC
sections can be loaded.  Where every object loads `ldd` returns, and what it
returns has all that it would return with the bad objects replaced, in runs with
decisive hits and with the same directories for each other object. -/
theorem ldd_survives (ldd : Ldd) (iter : Iter) :
    (∀ (path : OsString) (lpaths : Finset OsString) (bytes : List UInt8) (elf : Elf),
      ldd.fs.openFile path = .ok (.file bytes) → Elf.fromReader bytes = .ok elf →
      ((∀ es r, Runs (ldd.recurse iter path lpaths) es r → r ≠ none) ↔
        DynamicLoads bytes (List.range elf.sections.length) elf)) ∧
    (∀ (ldd' : Ldd) (bad : OsString → Prop) (files args args' : List OsString)
      (plan plan' : List (Choice Unit)) (s : ldd.State) (s' : ldd'.State),
      Replaced ldd ldd' bad → ldd.Finished files args (plan.map (Choice.withHint iter)) s →
      ldd'.Ran files args' (plan'.map (Choice.withHint iter)) s' →
      (∀ w ∈ s.workers, ldd.inDest w.item.path = true ∨ ldd.fs.Loads w.item.path) →
      Meets ldd.system (ldd.DecisiveHits args) (ldd.start args)
        (plan.map (Choice.withHint iter)) →
      Meets ldd'.system (ldd'.DecisiveHits args') (ldd'.start args')
        (plan'.map (Choice.withHint iter)) →
      (∀ w ∈ s.workers, ∀ w' ∈ s'.workers, w.item.path = w'.item.path → ¬ bad w'.item.path →
        (ldd.scanned w.item).lpaths = (ldd'.scanned w'.item).lpaths) →
      ldd.Ran files args (plan.map (Choice.withHint iter)) s ∧
        ∀ path ∈ collected s', path ∈ collected s) := by
  refine ⟨?_, ?_⟩
  · intro path lpaths bytes elf hopen helf
    have hpanic := scan_panic_iff_of_ok hopen helf lpaths
    have hnone := runs_recurse_none ldd iter path lpaths
    constructor
    · intro h
      refine Classical.byContradiction fun hloads => ?_
      obtain ⟨es, hes⟩ := hnone.mpr (hpanic.mpr hloads)
      exact h es none hes rfl
    · rintro hloads es r hr rfl
      exact hpanic.mp (hnone.mp ⟨es, hr⟩) hloads
  · intro ldd' bad files args args' plan plan' s s' hrep h h' hloads hhits hhits' hdirs
    have hran := h.ran hloads
    obtain rfl : args = args' := by
      have hcanon := h'.canonical
      have hsame : ldd'.fs.canonicalizeDir = ldd.fs.canonicalizeDir := by
        funext p
        rw [FileSystem.canonicalizeDir, FileSystem.canonicalizeDir, hrep.canonicalize]
      rw [hsame, h.canonical] at hcanon
      exact Option.some.inj hcanon
    have hhint := run_hints (fun w hw => by cases hw) (fun _ _ => Choice.hint_of_mem) h.run
    have hhint' := run_hints (fun w hw => by cases hw) (fun _ _ => Choice.hint_of_mem) h'.run
    refine ⟨hran, fun path hpath => ?_⟩
    obtain ⟨htaken, hdest⟩ := h'.mem_collected.mp hpath
    refine hran.mem_collected.mpr ⟨?_, (hrep.inDest path).symm.trans hdest⟩
    refine h.taken_subset h'.toFinished hhits hhits' (fun w' hw' w hw hsame => ?_) path htaken
    rw [hhint w hw, hhint' w' hw']
    exact hrep.itemTargets hsame (hdirs w hw w' hw' hsame)

end Run

end Ldd

namespace Sample

theorem libDirs_entryName : ∀ names ∈ [[], [ascii "lib64"], [ascii "lib64", ascii "dyninst"]],
    ∀ name ∈ names, EntryName name := by
  decide

/-- An object that needs `x` besides another one. -/
def beside (other : List UInt8) : Ldd where
  fs := FileSystem.plain [[], [ascii "lib64"], [ascii "lib64", ascii "dyninst"]]
    [(ascii "/a", needing "x"), (ascii "/b", other),
     (ascii "/lib64/dyninst/x", object [(0, 0)] [])] libDirs_entryName (by
      intro file hfile
      simp only [List.mem_cons, List.not_mem_nil, or_false] at hfile
      rcases hfile with rfl | rfl | rfl
      · decide
      · show parent (ascii "/b") ≠ none
        decide
      · decide)
  ldSoCache := none
  defaultLibdir := standardLibdirs
  destPath := ascii "/dest"

theorem exists_elf (bytes : List UInt8)
    (h : (match Elf.fromReader bytes with | .ok _ => true | _ => false) = true) :
    ∃ elf, Elf.fromReader bytes = .ok elf := by
  split at h
  · rename_i elf helf
    exact ⟨elf, helf⟩
  · cases h

/-- A table with a bit in FLAGS_1 that is not defined. -/
def undefinedFlags : List UInt8 := object [(0x6ffffffb, 0x10000000), (0, 0)] []

/-- The object is read, and `recurse` panics on it. -/
theorem undefinedFlags_panics :
    ∃ elf, Elf.fromReader undefinedFlags = .ok elf ∧
      (beside undefinedFlags).fs.openFile (ascii "/b") = .ok (.file undefinedFlags) ∧
      Runs ((beside undefinedFlags).recurse iter (ascii "/b") ∅) [] none := by
  have hscan : (beside undefinedFlags).fs.scan (ascii "/b") ∅ = .panic := by decide +kernel
  obtain ⟨elf, helf⟩ := exists_elf undefinedFlags (by decide +kernel)
  refine ⟨elf, helf, rfl, ?_⟩
  rw [Ldd.recurse, hscan]
  exact .nil _

/-- Of the other object only the content is different. -/
theorem beside_replaced (other other' : List UInt8)
    (hdeps : ∀ lpaths, ∃ sc, (beside other').fs.scan (ascii "/b") lpaths = .ok sc ∧ sc.deps = []) :
    Ldd.Replaced (beside other) (beside other') fun path => path = ascii "/b" where
  pathExists := by
    funext p
    simp only [beside, FileSystem.plain, List.lookup_cons, List.lookup_nil]
    cases p == ascii "/a" <;> cases p == ascii "/b" <;> rfl
  canonicalize := rfl
  openFile := by
    intro p hp
    have hne : (p == ascii "/b") = false := by simpa using hp
    simp only [beside, FileSystem.plain, List.lookup_cons, List.lookup_nil, hne]
  ldSoCache := rfl
  defaultLibdir := rfl
  destPath := rfl
  noDeps := by
    rintro p lpaths rfl
    exact hdeps lpaths

/-- The second object needs the library of the first, or nothing. -/
theorem beside_survives :
    ∃ (plan plan' : List (Choice Unit)) (s : (beside (needing "x")).State)
      (s' : (beside (object [(0, 0)] [])).State),
      (beside (object [(0, 0)] [])).Ran args args (plan'.map (Choice.withHint iter)) s' ∧
      (beside (needing "x")).Ran args args (plan.map (Choice.withHint iter)) s ∧
      (∀ path ∈ Ldd.collected s', path ∈ Ldd.collected s) ∧
      ∀ es r, Runs ((beside (needing "x")).recurse iter (ascii "/b") ∅) es r → r ≠ none := by
  let plan : List (Choice Unit) :=
    [.take 0 (), .run 0, .run 0, .run 0, .run 0, .take 0 (), .run 1, .run 1, .take 0 ()]
  let plan' : List (Choice Unit) :=
    [.take 0 (), .run 0, .run 0, .run 0, .run 0, .take 0 (), .take 0 ()]
  obtain ⟨s, hran, hs⟩ := Ldd.Ran.exists_of_ended (plan.map (Choice.withHint iter))
    (fun s : (beside (needing "x")).State => s.workers.all fun w =>
      decide (((beside (needing "x")).scanned w.item).lpaths = ∅) &&
        (w.item.path == ascii "/a" || w.item.path == ascii "/b" ||
          w.item.path == ascii "/lib64/dyninst/x"))
    (show args.mapM (beside (needing "x")).fs.canonicalizeDir = some args by decide +kernel)
    (by decide +kernel)
  obtain ⟨s', hran', hs'⟩ := Ldd.Ran.exists_of_ended (plan'.map (Choice.withHint iter))
    (fun s : (beside (object [(0, 0)] [])).State => s.workers.all fun w =>
      decide (((beside (object [(0, 0)] [])).scanned w.item).lpaths = ∅))
    (show args.mapM (beside (object [(0, 0)] [])).fs.canonicalizeDir = some args by decide +kernel)
    (by decide +kernel)
  have hloads (path : OsString) (hpath : path = ascii "/a" ∨ path = ascii "/b" ∨
      path = ascii "/lib64/dyninst/x") : (beside (needing "x")).fs.Loads path := by
    rcases hpath with rfl | rfl | rfl
    · exact loads_of_bytesLoad (needing "x") rfl (by decide +kernel)
    · exact loads_of_bytesLoad (needing "x") rfl (by decide +kernel)
    · exact loads_of_bytesLoad (object [(0, 0)] []) rfl (by decide +kernel)
  obtain ⟨hfirst, hsecond⟩ := Ldd.ldd_survives (beside (needing "x")) iter
  have hworker (w) (hw : w ∈ s.workers) : ((beside (needing "x")).scanned w.item).lpaths = ∅ ∧
      (w.item.path = ascii "/a" ∨ w.item.path = ascii "/b" ∨
        w.item.path = ascii "/lib64/dyninst/x") := by
    simpa [or_assoc] using List.all_eq_true.mp hs w hw
  have hworker' (w) (hw : w ∈ s'.workers) :
      ((beside (object [(0, 0)] [])).scanned w.item).lpaths = ∅ := by
    simpa using List.all_eq_true.mp hs' w hw
  have hdeps (lpaths : Finset OsString) : ∃ sc,
      (beside (object [(0, 0)] [])).fs.scan (ascii "/b") lpaths = .ok sc ∧ sc.deps = [] := by
    have h : (beside (object [(0, 0)] [])).fs.scan (ascii "/b") ∅ = .ok ⟨∅, []⟩ := by
      decide +kernel
    rw [Ldd.scan_inherit, h]
    exact ⟨_, rfl, rfl⟩
  obtain ⟨hran, hsub⟩ := hsecond _ _ args args args plan plan' s s'
    (beside_replaced (needing "x") (object [(0, 0)] []) hdeps) hran.toFinished hran'
    (fun w hw => .inr (hloads _ (hworker w hw).2)) (by decide +kernel) (by decide +kernel)
    (fun w hw w' hw' _ _ => (hworker w hw).1.trans (hworker' w' hw').symm)
  obtain ⟨elf, helf⟩ := exists_elf (needing "x") (by decide +kernel)
  exact ⟨plan, plan', s, s', hran', hran, hsub,
    (hfirst (ascii "/b") ∅ (needing "x") elf rfl helf).mpr
      ((hloads (ascii "/b") (.inr (.inl rfl)) _ rfl).2 elf helf)⟩

end Sample
end Elfkit
end DracutInstall

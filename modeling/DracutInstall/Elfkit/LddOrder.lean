/-
The order in which `recurse` looks for a name.

The directories of an object are a set when the search goes through them, so the
listed order is not the order of the search.  `Orderly` says when that makes no
difference: at most one path among those of the listed directories exists, no
other two directories give the same path, and the later stages are reached when
they are the ones that have the name.
-/
import DracutInstall.Elfkit.LddAlone
import DracutInstall.Elfkit.LddClosure

namespace DracutInstall
namespace Elfkit

open ByteCodec Rust UnixPath WorkList Probe

/-! ## The directories in the order of the object -/

/-- The directories an entry lists. -/
def entryDirs (path : OsString) (entry : Dynamic) : List OsString :=
  match entry.content with
  | .string name _ =>
      if entry.dhtype = .rpath ∨ entry.dhtype = .runpath then
        match parent path with
        | none => []
        | some origin => runPaths origin name
      else []
  | _ => []

/-- The directories the DYNAMIC sections list. -/
def sectionsDirs (file : List UInt8) (path : OsString) : List Nat → Elf → List OsString
  | [], _ => []
  | shndx :: rest, elf =>
      match elf.sections[shndx]? with
      | none => []
      | some sec =>
          if sec.header.shtype = SectionType.dynamic then
            let elf := (elf.load file shndx).2
            match elf.sections[shndx]?.bind fun sec => sec.content.asDynamic with
            | none => []
            | some entries => entries.flatMap (entryDirs path) ++ sectionsDirs file path rest elf
          else sectionsDirs file path rest elf

/-- `d1:...:dn`. -/
def FileSystem.runDirs (fs : FileSystem) (path : OsString) : List OsString :=
  match fs.openFile path with
  | .ok (.file bytes) =>
      match Elf.fromReader bytes with
      | .ok elf => sectionsDirs bytes path (List.range elf.sections.length) elf
      | _ => []
  | _ => []

section RunDirs

variable {path : OsString} {s s' : Scanned}

theorem scanEntry_lpaths {entry : Dynamic} (h : scanEntry path s entry = .ok s') :
    s'.lpaths = s.lpaths ∪ (entryDirs path entry).toFinset := by
  rw [scanEntry] at h
  rw [entryDirs]
  cases hcontent : entry.content with
  | none =>
      rw [hcontent] at h
      cases h
      exact (Finset.union_empty _).symm
  | address value =>
      rw [hcontent] at h
      cases h
      exact (Finset.union_empty _).symm
  | flags1 flags =>
      rw [hcontent] at h
      cases h
      exact (Finset.union_empty _).symm
  | string name offset =>
      rw [hcontent] at h
      dsimp only at h ⊢
      split at h
      · rename_i htype
        rw [if_pos htype]
        cases horigin : parent path with
        | none =>
            rw [horigin] at h
            cases h
        | some origin =>
            rw [horigin] at h
            cases h
            rfl
      · rename_i htype
        rw [if_neg htype, List.toFinset_nil, Finset.union_empty]
        split at h
        · cases h
          rfl
        · cases h
          rfl

theorem scanEntries_lpaths {entries : List Dynamic} (h : scanEntries path s entries = .ok s') :
    s'.lpaths = s.lpaths ∪ (entries.flatMap (entryDirs path)).toFinset := by
  induction entries generalizing s with
  | nil =>
      cases h
      exact (Finset.union_empty _).symm
  | cons entry entries ih =>
      rw [scanEntries] at h
      cases hentry : scanEntry path s entry with
      | ok s₁ =>
          rw [hentry] at h
          rw [ih h, scanEntry_lpaths hentry, List.flatMap_cons, List.toFinset_append,
            Finset.union_assoc]
      | err e =>
          rw [hentry] at h
          cases h
      | panic =>
          rw [hentry] at h
          cases h

theorem scanSections_lpaths {file : List UInt8} {is : List Nat} {elf : Elf}
    (h : scanSections file path is elf s = .ok s') :
    s'.lpaths = s.lpaths ∪ (sectionsDirs file path is elf).toFinset := by
  induction is generalizing elf s with
  | nil =>
      cases h
      exact (Finset.union_empty _).symm
  | cons i is ih =>
      rw [scanSections] at h
      rw [sectionsDirs]
      cases hsec : elf.sections[i]? with
      | none =>
          rw [hsec] at h
          cases h
      | some sec =>
          rw [hsec] at h
          dsimp only at h ⊢
          split at h
          · rename_i htype
            rw [if_pos htype]
            cases hload : elf.load file i with
            | mk r elf' =>
                rw [hload] at h
                cases r with
                | ok u =>
                    dsimp only at h ⊢
                    cases hcontent : elf'.sections[i]?.bind fun sec => sec.content.asDynamic with
                    | none =>
                        rw [hcontent] at h
                        cases h
                    | some entries =>
                        rw [hcontent] at h
                        dsimp only at h ⊢
                        cases hentries : scanEntries path s entries with
                        | ok s₁ =>
                            rw [hentries] at h
                            rw [ih h, scanEntries_lpaths hentries, List.toFinset_append,
                              Finset.union_assoc]
                        | err e =>
                            rw [hentries] at h
                            cases h
                        | panic =>
                            rw [hentries] at h
                            cases h
                | err e => cases h
                | panic => cases h
          · rename_i htype
            rw [if_neg htype]
            exact ih h

/-- What an object is searched along is what it inherits and what it lists. -/
theorem scan_lpaths {fs : FileSystem} {lpaths : Finset OsString}
    (h : fs.scan path lpaths = .ok s) : s.lpaths = lpaths ∪ (fs.runDirs path).toFinset := by
  rw [FileSystem.scan] at h
  rw [FileSystem.runDirs]
  split at h
  · cases h
  · cases h
  · rename_i bytes hopen
    cases helf : Elf.fromReader bytes with
    | ok elf =>
        rw [helf] at h
        rw [hopen]
        dsimp only
        rw [helf]
        exact scanSections_lpaths h
    | err e =>
        rw [helf] at h
        cases e <;> cases h
    | panic =>
        rw [helf] at h
        cases h

end RunDirs

namespace Ldd

variable {ldd : Ldd}

/-! ## What should be enqueued -/

/-- The paths the cache lists for a name. -/
def listedPaths (ldd : Ldd) (dep : OsString) : List OsString :=
  ((ldd.listed dep).getD []).map ldd.fs.spelling

/-- The copy in the first of the listed directories that holds the name; otherwise
the paths of the cache that exist; otherwise the copy in the first default
directory that holds it. -/
def expected (ldd : Ldd) (dirs : List OsString) (dep : OsString) : List OsString :=
  match (ldd.inDirs dirs dep).find? ldd.fs.pathExists with
  | some j => [j]
  | none =>
      match (ldd.listedPaths dep).filter ldd.fs.pathExists with
      | [] => ((ldd.inDirs ldd.defaultLibdir dep).find? ldd.fs.pathExists).toList
      | js => js

/-- Of the candidates of a name, `recurse` enqueues what it should, for every order
in which the set of directories may be iterated over. -/
def InSearchOrder (ldd : Ldd) (path : OsString) : Prop :=
  ∀ sc, ldd.fs.scan path ∅ = .ok sc → ∀ (iter : Iter) (shared : Shared ldd.fs),
    shared.visited = ∅ → ∀ dep ∈ sc.deps, ∀ c, Candidate ldd sc.lpaths dep c →
      (ldd.fs.spelling c ∈
          ((ldd.recurse iter path ∅).alone ldd.system shared).enqueued.map Item.path ↔
        ldd.fs.spelling c ∈ ldd.expected (ldd.fs.runDirs path) dep)

/-! ## When the order makes no difference -/

/-- A name is found where it should be, in whatever order the directories are tried. -/
inductive Decided (ldd : Ldd) (dirs : List OsString) (dep : OsString) : Prop
  | inDirs : (∃ dir ∈ dirs, ldd.fs.pathExists (ldd.candidate dep dir) = true) →
      (∀ dir ∈ dirs, ∀ dir' ∈ dirs, ldd.fs.pathExists (ldd.candidate dep dir) = true →
        ldd.fs.pathExists (ldd.candidate dep dir') = true →
        ldd.candidate dep dir = ldd.candidate dep dir') →
      (∀ dir ∈ dirs, ∀ dir' ∈ dirs, ldd.candidate dep dir = ldd.candidate dep dir' → dir ≠ dir' →
        ldd.fs.pathExists (ldd.candidate dep dir) = true) →
      Decided ldd dirs dep
  | inCache (vals : List OsString) : AllMissed ldd ∅ (ldd.inDirs dirs.dedup dep) →
      ldd.listed dep = some vals →
      (∃ f ∈ vals, ldd.fs.pathExists (ldd.fs.spelling f) = true) → Decided ldd dirs dep
  | inDefault (j : OsString) : AllMissed ldd ∅ (ldd.inDirs dirs.dedup dep) →
      ldd.listed dep = none →
      FirstOf ldd (ldd.inDirs dirs dep).toFinset (ldd.inDirs ldd.defaultLibdir dep) j →
      Decided ldd dirs dep

/-- A search for the name ends with the error. -/
def Unprovided (ldd : Ldd) (dirs : List OsString) (dep : OsString) : Prop :=
  ldd.listed dep = none ∧ AllMissed ldd ∅ (ldd.inDirs (dirs.dedup ++ ldd.defaultLibdir) dep)

/-- Each name that can be found is reached, and decided. -/
def Orderly (ldd : Ldd) (path : OsString) : Prop :=
  ∀ sc, ldd.fs.scan path ∅ = .ok sc → ∀ dep ∈ sc.deps,
    ldd.expected (ldd.fs.runDirs path) dep ≠ [] →
      (∀ d ∈ sc.deps.takeWhile (fun d => d ≠ dep), ¬ Unprovided ldd (ldd.fs.runDirs path) d) ∧
      Decided ldd (ldd.fs.runDirs path) dep

/-- Two names of the object are not looked for at one path. -/
def SeparateNames (ldd : Ldd) (path : OsString) : Prop :=
  ∀ sc, ldd.fs.scan path ∅ = .ok sc → ∀ d ∈ sc.deps, ∀ d' ∈ sc.deps, ∀ c c',
    Candidate ldd sc.lpaths d c → Candidate ldd sc.lpaths d' c' →
    ldd.fs.spelling c = ldd.fs.spelling c' → d = d'

/-! ## One name -/

/-- The destination holds nothing. -/
def EmptyDest (ldd : Ldd) : Prop := ∀ path, ldd.inDest path = false

section Name

variable {dirs order : List OsString} {dep j : OsString}

theorem EmptyDest.installable (h : ldd.EmptyDest) (path : OsString) :
    ldd.installable path = ldd.fs.pathExists path := by
  rw [Ldd.installable, h path, Bool.not_false, Bool.and_true]

/-- An order in which the set of some listed directories can be iterated over. -/
structure OrderOf (dirs order : List OsString) : Prop where
  nodup : order.Nodup
  mem : ∀ dir, dir ∈ order ↔ dir ∈ dirs

theorem OrderOf.iter (iter : Iter) (dirs : List OsString) :
    OrderOf dirs (iter.val dirs.toFinset) where
  nodup := (iter.property _).1
  mem := fun dir => ((iter.property _).2 dir).trans List.mem_toFinset

theorem OrderOf.dedup (dirs : List OsString) : OrderOf dirs dirs.dedup :=
  ⟨List.nodup_dedup dirs, fun _ => List.mem_dedup⟩

theorem OrderOf.perm (h : OrderOf dirs order) : dirs.dedup.Perm order :=
  (List.perm_ext_iff_of_nodup (List.nodup_dedup dirs) h.nodup).mpr fun dir =>
    List.mem_dedup.trans (h.mem dir).symm

/-- Every order is one in which some `HashSet` is iterated over. -/
theorem OrderOf.exists_iter (h : OrderOf dirs order) :
    ∃ iter : Iter, iter.val dirs.toFinset = order := by
  refine ⟨Iter.ofLists [order] (fun l hl => List.mem_singleton.mp hl ▸ h.nodup), ?_⟩
  have hsame : order.toFinset = dirs.toFinset := by
    ext dir
    rw [List.mem_toFinset, List.mem_toFinset, h.mem]
  simp [Iter.ofLists, hsame]

theorem AllMissed.perm {seen : Finset OsString} {js ks : List OsString}
    (h : AllMissed ldd seen js) (hperm : js.Perm ks) : AllMissed ldd seen ks :=
  ⟨h.1.perm hperm, fun j hj => h.2 j (hperm.mem_iff.mpr hj)⟩

theorem FirstOf.mem {seen : Finset OsString} {js : List OsString} (h : FirstOf ldd seen js j) :
    j ∈ js := by
  obtain ⟨before, after, heq, _⟩ := h
  rw [heq]
  exact List.mem_append_right _ List.mem_cons_self

theorem FirstOf.find {seen : Finset OsString} {js : List OsString}
    (h : FirstOf ldd seen js j) : js.find? ldd.installable = some j := by
  obtain ⟨before, after, heq, _, hbefore, hj⟩ := h
  rw [heq, List.find?_append, List.find?_eq_none.mpr (fun i hi => by simp [hbefore i hi]),
    Option.none_or, List.find?_cons_of_pos hj]

theorem not_allMissed_of_firstOf {seen : Finset OsString} {js : List OsString}
    (h : j ∈ js) (hj : ldd.installable j = true) : ¬ AllMissed ldd seen js := by
  intro hall
  rw [hall.2 j h] at hj
  cases hj

/-- The candidates of a name are those of its stages. -/
theorem mem_candidates {lpaths : Finset OsString} (hdirs : lpaths = dirs.toFinset) :
    (∃ c, Candidate ldd lpaths dep c ∧ ldd.fs.spelling c = j) ↔
      j ∈ ldd.inDirs dirs dep ∨ j ∈ ldd.listedPaths dep ∨ j ∈ ldd.inDirs ldd.defaultLibdir dep := by
  subst hdirs
  constructor
  · intro hex
    obtain ⟨c, hc, hj⟩ := hex
    cases hc with
    | inDirs dir hdir => exact .inl (List.mem_map.mpr ⟨dir, List.mem_toFinset.mp hdir, hj⟩)
    | inCache vals _ hvals hf =>
        refine .inr (.inl ?_)
        rw [listedPaths, hvals]
        exact List.mem_map.mpr ⟨c, hf, hj⟩
    | inDefault dir hdir => exact .inr (.inr (List.mem_map.mpr ⟨dir, hdir, hj⟩))
  · intro h
    rcases h with h | h | h
    · obtain ⟨dir, hdir, hj⟩ := List.mem_map.mp h
      exact ⟨_, .inDirs dir (List.mem_toFinset.mpr hdir), hj⟩
    · rw [listedPaths] at h
      cases hlisted : ldd.listed dep with
      | none =>
          rw [hlisted] at h
          cases h
      | some vals =>
          rw [hlisted] at h
          obtain ⟨f, hf, hj⟩ := List.mem_map.mp h
          exact ⟨f, .inCache vals f hlisted hf, hj⟩
    · obtain ⟨dir, hdir, hj⟩ := List.mem_map.mp h
      exact ⟨_, .inDefault dir hdir, hj⟩

/-- Nothing is expected only where no candidate exists. -/
theorem expected_ne_nil (h : j ∈ ldd.inDirs dirs dep ∨ j ∈ ldd.listedPaths dep ∨
    j ∈ ldd.inDirs ldd.defaultLibdir dep) (hj : ldd.fs.pathExists j = true) :
    ldd.expected dirs dep ≠ [] := by
  rw [expected]
  split
  · exact List.cons_ne_nil _ _
  · rename_i hnone
    split
    · rename_i hfilter
      rcases h with h | h | h
      · exact absurd hj (List.find?_eq_none.mp hnone j h)
      · have hmem := List.mem_filter.mpr ⟨h, hj⟩
        rw [hfilter] at hmem
        cases hmem
      · cases hfind : (ldd.inDirs ldd.defaultLibdir dep).find? ldd.fs.pathExists with
        | none => exact absurd hj (List.find?_eq_none.mp hfind j h)
        | some i => exact List.cons_ne_nil _ _
    · rename_i hne
      exact hne

theorem expected_candidate (h : j ∈ ldd.expected dirs dep) :
    (j ∈ ldd.inDirs dirs dep ∨ j ∈ ldd.listedPaths dep ∨ j ∈ ldd.inDirs ldd.defaultLibdir dep) ∧
      ldd.fs.pathExists j = true := by
  rw [expected] at h
  split at h
  · rename_i i hfind
    obtain rfl := List.mem_singleton.mp h
    exact ⟨.inl (List.mem_of_find?_eq_some hfind), List.find?_some hfind⟩
  · split at h
    · have hfind := Option.mem_toList.mp h
      exact ⟨.inr (.inr (List.mem_of_find?_eq_some hfind)), List.find?_some hfind⟩
    · obtain ⟨hmem, hj⟩ := List.mem_filter.mp h
      exact ⟨.inr (.inl hmem), hj⟩

theorem expected_of_found (h : (ldd.inDirs dirs dep).find? ldd.fs.pathExists = some j) :
    ldd.expected dirs dep = [j] := by
  rw [expected, h]

theorem expected_of_missed (hdest : ldd.EmptyDest)
    (h : ∀ j ∈ ldd.inDirs dirs dep, ldd.installable j = false) :
    ldd.expected dirs dep =
      match (ldd.listedPaths dep).filter ldd.fs.pathExists with
      | [] => ((ldd.inDirs ldd.defaultLibdir dep).find? ldd.fs.pathExists).toList
      | js => js := by
  have hnone : (ldd.inDirs dirs dep).find? ldd.fs.pathExists = none := by
    refine List.find?_eq_none.mpr fun i hi => ?_
    rw [← hdest.installable, h i hi]
    exact Bool.false_ne_true
  rw [expected, hnone]

theorem inDirs_perm {dirs' : List OsString} (h : dirs.Perm dirs') :
    (ldd.inDirs dirs dep).Perm (ldd.inDirs dirs' dep) := h.map _

theorem OrderOf.mem_inDirs (h : OrderOf dirs order) :
    j ∈ ldd.inDirs order dep ↔ j ∈ ldd.inDirs dirs dep := by
  rw [inDirs, inDirs, List.mem_map, List.mem_map]
  exact exists_congr fun dir => and_congr_left fun _ => h.mem dir

theorem OrderOf.stages (h : OrderOf dirs order) (hj : j ∈ ldd.lookedAt order dep) :
    j ∈ ldd.inDirs dirs dep ∨ j ∈ ldd.listedPaths dep ∨ j ∈ ldd.inDirs ldd.defaultLibdir dep := by
  rw [lookedAt, List.mem_append, h.mem_inDirs] at hj
  refine hj.imp_right fun hj => ?_
  cases hlisted : ldd.listed dep with
  | some vals =>
      rw [hlisted] at hj
      rw [listedPaths, hlisted]
      exact .inl hj
  | none =>
      rw [hlisted] at hj
      exact .inr hj

theorem OrderOf.allMissed (h : OrderOf dirs order)
    (hall : AllMissed ldd ∅ (ldd.inDirs dirs.dedup dep)) :
    AllMissed ldd ∅ (ldd.inDirs order dep) := hall.perm (inDirs_perm h.perm)

/-- Where at most one path exists and only that one is met twice, a search along the
directories takes it. -/
theorem firstOf_of_one (h : OrderOf dirs order)
    (hexists : ∃ dir ∈ dirs, ldd.installable (ldd.candidate dep dir) = true)
    (hdead : ∀ dir ∈ dirs, ∀ dir' ∈ dirs, ldd.candidate dep dir = ldd.candidate dep dir' →
      dir ≠ dir' → ldd.installable (ldd.candidate dep dir) = true) :
    ∃ j, FirstOf ldd ∅ (ldd.inDirs order dep) j := by
  obtain ⟨dir, hdir, hinst⟩ := hexists
  have hsome : (order.find? fun dir => ldd.installable (ldd.candidate dep dir)).isSome = true :=
    List.find?_isSome.mpr ⟨dir, (h.mem dir).mpr hdir, hinst⟩
  obtain ⟨d, hfind⟩ := Option.isSome_iff_exists.mp hsome
  obtain ⟨hd, before, after, horder, hbefore⟩ := List.find?_eq_some_iff_append.mp hfind
  have hmiss : ∀ dir ∈ before, ldd.installable (ldd.candidate dep dir) = false := by
    intro dir hdir
    simpa using hbefore dir hdir
  refine ⟨ldd.candidate dep d, before.map (ldd.candidate dep), after.map (ldd.candidate dep), ?_,
    ⟨?_, fun _ _ => Finset.notMem_empty _⟩, ?_, hd⟩
  · rw [inDirs, horder, List.map_append, List.map_cons]
  · rw [← List.map_singleton (f := ldd.candidate dep), ← List.map_append]
    have hsub : ∀ dir ∈ before ++ [d], dir ∈ dirs := by
      intro dir hdir
      refine (h.mem dir).mp (horder ▸ ?_)
      rcases List.mem_append.mp hdir with hdir | hdir
      · exact List.mem_append_left _ hdir
      · exact List.mem_append_right _ (List.mem_singleton.mp hdir ▸ List.mem_cons_self)
    -- only `d` gives a path that exists, so no other directory is there twice
    have hlast : ∀ dir ∈ before ++ [d], ldd.installable (ldd.candidate dep dir) = true →
        dir = d := by
      intro dir hdir hinst
      rcases List.mem_append.mp hdir with hdir | hdir
      · rw [hmiss dir hdir] at hinst
        cases hinst
      · exact List.mem_singleton.mp hdir
    have hnodup : (before ++ [d]).Nodup := by
      have hall := h.nodup
      rw [horder, ← List.singleton_append, ← List.append_assoc] at hall
      exact (List.nodup_append.mp hall).1
    refine hnodup.map_on fun x hx y hy hxy => Classical.byContradiction fun hne => ?_
    have hinst := hdead x (hsub x hx) y (hsub y hy) hxy hne
    exact hne ((hlast x hx hinst).trans (hlast y hy (hxy ▸ hinst)).symm)
  · intro i hi
    obtain ⟨dir, hdir, rfl⟩ := List.mem_map.mp hi
    exact hmiss dir hdir

theorem FirstOf.installable {seen : Finset OsString} {js : List OsString}
    (h : FirstOf ldd seen js j) : ldd.installable j = true := by
  obtain ⟨_, _, _, _, _, hj⟩ := h
  exact hj

theorem EmptyDest.find (h : ldd.EmptyDest) (js : List OsString) :
    js.find? ldd.fs.pathExists = js.find? ldd.installable := by
  rw [show ldd.installable = ldd.fs.pathExists from funext h.installable]

/-- A decided name is offered where it is expected, in every order. -/
theorem Decided.offers_iff (h : Decided ldd dirs dep) (hdest : ldd.EmptyDest)
    (horder : OrderOf dirs order) :
    Offers ldd order ∅ dep j ↔ j ∈ ldd.expected dirs dep := by
  cases h with
  | inDirs hexists hone hdead =>
      simp only [← hdest.installable] at hexists hone hdead
      have hsame : ∀ i ∈ ldd.inDirs dirs dep, ∀ i' ∈ ldd.inDirs dirs dep,
          ldd.installable i = true → ldd.installable i' = true → i = i' := by
        intro i hi i' hi' hinst hinst'
        obtain ⟨dir, hdir, rfl⟩ := List.mem_map.mp hi
        obtain ⟨dir', hdir', rfl⟩ := List.mem_map.mp hi'
        exact hone dir hdir dir' hdir' hinst hinst'
      obtain ⟨first, hfirst⟩ := firstOf_of_one horder hexists hdead
      have hmem := horder.mem_inDirs.mp hfirst.mem
      have hinst := hfirst.installable
      obtain ⟨i, hi⟩ : ∃ i, (ldd.inDirs dirs dep).find? ldd.installable = some i :=
        Option.isSome_iff_exists.mp (List.find?_isSome.mpr ⟨first, hmem, hinst⟩)
      obtain rfl := hsame i (List.mem_of_find?_eq_some hi) first hmem (List.find?_some hi) hinst
      rw [expected_of_found ((hdest.find _).trans hi), List.mem_singleton]
      constructor
      · intro hoffer
        have hnot : ¬ AllMissed ldd ∅ (ldd.inDirs order dep) :=
          not_allMissed_of_firstOf (horder.mem_inDirs.mpr hmem) hinst
        cases hoffer with
        | inDirs hj => exact hsame j (horder.mem_inDirs.mp hj.mem) i hmem hj.installable hinst
        | inCache vals hall _ _ _ _ => exact absurd hall hnot
        | inDefault hall _ _ => exact absurd hall hnot
      · intro hj
        subst hj
        exact .inDirs hfirst
  | inCache vals hall hlisted hexists =>
      have hall := horder.allMissed hall
      have hmissed : ∀ j ∈ ldd.inDirs dirs dep, ldd.installable j = false :=
        fun j hj => hall.2 j (horder.mem_inDirs.mpr hj)
      have hpaths : ldd.listedPaths dep = vals.map ldd.fs.spelling := by
        rw [listedPaths, hlisted, Option.getD_some]
      obtain ⟨f, hf, hexists⟩ := hexists
      have hne : (vals.map ldd.fs.spelling).filter ldd.fs.pathExists ≠ [] :=
        List.ne_nil_of_mem (List.mem_filter.mpr ⟨List.mem_map_of_mem hf, hexists⟩)
      rw [expected_of_missed hdest hmissed, hpaths]
      split
      · rename_i hnil
        exact absurd hnil hne
      · rw [List.mem_filter, ← hdest.installable]
        constructor
        · intro hoffer
          cases hoffer with
          | inDirs hj => exact absurd hall (not_allMissed_of_firstOf hj.mem hj.installable)
          | inCache vals' _ hvals hj hinst _ =>
              obtain rfl := Option.some.inj (hlisted.symm.trans hvals)
              exact ⟨hj, hinst⟩
          | inDefault _ hnone _ =>
              rw [hlisted] at hnone
              cases hnone
        · exact fun hj => .inCache vals hall hlisted hj.1 hj.2 (Finset.notMem_empty _)
  | inDefault i hall hlisted hfirst =>
      have hall := horder.allMissed hall
      have hmissed : ∀ j ∈ ldd.inDirs dirs dep, ldd.installable j = false :=
        fun j hj => hall.2 j (horder.mem_inDirs.mpr hj)
      have hseen : ∅ ∪ (ldd.inDirs order dep).toFinset = (ldd.inDirs dirs dep).toFinset := by
        rw [Finset.empty_union]
        ext k
        rw [List.mem_toFinset, List.mem_toFinset, horder.mem_inDirs]
      have hexpected : ldd.expected dirs dep = [i] := by
        rw [expected_of_missed hdest hmissed, listedPaths, hlisted, hdest.find, hfirst.find]
        rfl
      rw [hexpected, List.mem_singleton]
      constructor
      · intro hoffer
        cases hoffer with
        | inDirs hj => exact absurd hall (not_allMissed_of_firstOf hj.mem hj.installable)
        | inCache vals _ hvals _ _ _ =>
            rw [hlisted] at hvals
            cases hvals
        | inDefault _ _ hj => exact Option.some.inj (hj.find.symm.trans hfirst.find)
      · intro hj
        subst hj
        exact .inDefault hall hlisted (hseen ▸ hfirst)

theorem OrderOf.of_perm {order' : List OsString} (h : OrderOf dirs order)
    (hperm : order.Perm order') : OrderOf dirs order' :=
  ⟨hperm.nodup_iff.mp h.nodup, fun dir => hperm.mem_iff.symm.trans (h.mem dir)⟩

/-- Two directories may be the first. -/
theorem exists_order {dir dir' : OsString} (h : dir ∈ dirs) (h' : dir' ∈ dirs)
    (hne : dir ≠ dir') : ∃ rest, OrderOf dirs (dir :: dir' :: rest) := by
  have hperm := List.perm_cons_erase (List.mem_dedup.mpr h)
  have hmem : dir' ∈ dirs.dedup.erase dir :=
    (List.mem_erase_of_ne hne.symm).mpr (List.mem_dedup.mpr h')
  exact ⟨_, (OrderOf.dedup dirs).of_perm
    (hperm.trans ((List.perm_cons_erase hmem).cons dir))⟩

/-- A search ends at the first candidate that can be installed. -/
theorem firstOf_head {js : List OsString} (h : ldd.installable j = true) :
    FirstOf ldd ∅ (j :: js) j :=
  ⟨[], js, rfl, Probe.fresh_cons.mpr ⟨Finset.notMem_empty j, Fresh.nil⟩,
    fun _ hi => absurd hi List.not_mem_nil, h⟩

/-- A path that does not exist, met twice in a row, ends a search with nothing. -/
theorem not_offers_of_twice {i : OsString} {rest : List OsString}
    (hjs : ldd.inDirs order dep = i :: i :: rest) (hi : ldd.installable i = false) :
    ¬ Offers ldd order ∅ dep j := by
  have htwice {js : List OsString} : ¬ (i :: i :: js).Nodup :=
    fun h => (List.nodup_cons.mp h).1 List.mem_cons_self
  have hnot : ¬ AllMissed ldd ∅ (ldd.inDirs order dep) := by
    intro hall
    exact htwice (hjs ▸ hall.1.nodup)
  intro h
  cases h with
  | inDirs hfirst =>
      obtain ⟨before, after, heq, hfresh, _, hj⟩ := hfirst
      rw [hjs] at heq
      match before with
      | [] =>
          obtain ⟨rfl, _⟩ := List.cons.inj heq
          rw [hi] at hj
          cases hj
      | [k] =>
          have hij : i = j := (List.cons.inj (List.cons.inj heq).2).1
          rw [← hij, hi] at hj
          cases hj
      | k :: l :: before =>
          have hk : i = k := (List.cons.inj heq).1
          have hl : i = l := (List.cons.inj (List.cons.inj heq).2).1
          rw [← hk, ← hl] at hfresh
          exact htwice hfresh.nodup
  | inCache vals hall _ _ _ _ => exact hnot hall
  | inDefault hall _ _ => exact hnot hall

/-- A name that is offered where it is expected in every order is decided. -/
theorem decided_of_offers (hdest : ldd.EmptyDest) (hne : ldd.expected dirs dep ≠ [])
    (hall : ∀ order, OrderOf dirs order →
      ∀ j, Offers ldd order ∅ dep j ↔ j ∈ ldd.expected dirs dep) :
    Decided ldd dirs dep := by
  obtain ⟨e, he⟩ := List.exists_mem_of_ne_nil _ hne
  cases hfind : (ldd.inDirs dirs dep).find? ldd.fs.pathExists with
  | some first =>
      have hfirst := expected_of_found hfind
      have hmem := List.mem_of_find?_eq_some hfind
      obtain ⟨dir, hdir, hdirFirst⟩ := List.mem_map.mp hmem
      have hexists : ldd.fs.pathExists first = true := List.find?_some hfind
      -- a path that exists is offered when its directory comes first
      have heq : ∀ dir' ∈ dirs, ldd.fs.pathExists (ldd.candidate dep dir') = true →
          ldd.candidate dep dir' = first := by
        intro dir' hdir' hex
        have hperm := List.perm_cons_erase (List.mem_dedup.mpr hdir')
        have hfront := (OrderOf.dedup dirs).of_perm hperm
        have hoffer := (hall _ hfront (ldd.candidate dep dir')).mp
          (.inDirs (firstOf_head ((hdest.installable _).trans hex)))
        rw [hfirst] at hoffer
        exact List.mem_singleton.mp hoffer
      refine .inDirs ⟨dir, hdir, hdirFirst ▸ hexists⟩ ?_ ?_
      · intro x hx y hy hex hey
        rw [heq x hx hex, heq y hy hey]
      · intro x hx y hy hxy hne
        refine Classical.byContradiction fun hdead => ?_
        obtain ⟨rest, horder⟩ := exists_order hx hy hne
        have htwice : ldd.inDirs (x :: y :: rest) dep =
            ldd.candidate dep x :: ldd.candidate dep x :: ldd.inDirs rest dep := by
          rw [inDirs, List.map_cons, List.map_cons, ← hxy, ← inDirs]
        refine not_offers_of_twice htwice ?_ ((hall _ horder e).mpr he)
        rw [hdest.installable]
        exact Bool.eq_false_iff.mpr hdead
  | none =>
      have hmissed : ∀ i ∈ ldd.inDirs dirs dep, ldd.installable i = false := by
        intro i hi
        rw [hdest.installable]
        exact Bool.eq_false_iff.mpr (List.find?_eq_none.mp hfind i hi)
      have hdedup := OrderOf.dedup dirs
      have hseen : ∅ ∪ (ldd.inDirs dirs.dedup dep).toFinset = (ldd.inDirs dirs dep).toFinset := by
        rw [Finset.empty_union]
        ext k
        rw [List.mem_toFinset, List.mem_toFinset, hdedup.mem_inDirs]
      cases (hall _ hdedup e).mpr he with
      | inDirs hj =>
          have hno := hmissed e (hdedup.mem_inDirs.mp hj.mem)
          rw [hj.installable] at hno
          cases hno
      | inCache vals hmiss hlisted hj hinst _ =>
          obtain ⟨f, hf, rfl⟩ := List.mem_map.mp hj
          exact .inCache vals hmiss hlisted ⟨f, hf, (hdest.installable _).symm.trans hinst⟩
      | inDefault hmiss hlisted hj => exact .inDefault e hmiss hlisted (hseen ▸ hj)

end Name

/-! ## All names -/

section Names

variable {order deps : List OsString} {dep j : OsString}

/-- A name found once is met at once the next time. -/
theorem searchFrom_again {seen seen' : Finset OsString}
    (hfound : (ldd.searchFrom order seen dep).found = true)
    (hsub : (ldd.searchFrom order seen dep).seen ⊆ seen') :
    ldd.searchFrom order seen' dep = ⟨true, [], seen'⟩ := by
  by_cases hne : ldd.inDirs order dep = []
  · have hmissed (seen : Finset OsString) :
        probe ldd.installable seen (ldd.inDirs order dep) = ⟨false, [], seen⟩ := by
      rw [hne, probe]
    have hfalse (seen : Finset OsString) :
        (probe ldd.installable seen (ldd.inDirs order dep)).found = false := by
      rw [hmissed]
    cases hlisted : ldd.listed dep with
    | some vals =>
        rw [searchFrom_of_listed (hfalse seen) hlisted, hmissed, probeAll_seen] at hsub
        rw [searchFrom_of_listed (hfalse seen') hlisted, hmissed]
        exact probeAll_again (Finset.subset_union_right.trans hsub)
    | none =>
        rw [searchFrom_of_unlisted (hfalse seen) hlisted, hmissed] at hsub hfound
        rw [searchFrom_of_unlisted (hfalse seen') hlisted, hmissed]
        refine probe_again (fun hnil => ?_) hsub
        rw [hnil] at hfound
        cases hfound
  · have hfirst : (probe ldd.installable seen (ldd.inDirs order dep)).seen ⊆
        (ldd.searchFrom order seen dep).seen := by
      cases hprobe : (probe ldd.installable seen (ldd.inDirs order dep)).found with
      | true => rw [searchFrom_of_found hprobe]
      | false =>
          cases hlisted : ldd.listed dep with
          | some vals =>
              rw [searchFrom_of_listed hprobe hlisted, probeAll_seen]
              exact Finset.subset_union_left
          | none =>
              rw [searchFrom_of_unlisted hprobe hlisted]
              exact probe_seen_mono
    have hagain := probe_again hne (hfirst.trans hsub)
    rw [searchFrom_of_found (by rw [hagain]), hagain]

theorem resolveFrom_seen_sub {seen : Finset OsString}
    (h : j ∈ (ldd.resolveFrom order seen deps).seen) :
    j ∈ seen ∨ ∃ d ∈ deps, j ∈ ldd.lookedAt order d := by
  induction deps generalizing seen with
  | nil => exact .inl h
  | cons d deps ih =>
      have hfirst : j ∈ (ldd.searchFrom order seen d).seen →
          j ∈ seen ∨ ∃ d' ∈ d :: deps, j ∈ ldd.lookedAt order d' := by
        intro hj
        rcases Finset.mem_union.mp (searchFrom_seen_sub hj) with hj | hj
        · exact .inl hj
        · exact .inr ⟨d, List.mem_cons_self, List.mem_toFinset.mp hj⟩
      rw [resolveFrom] at h
      dsimp only at h
      split at h
      · rcases ih h with hj | ⟨d', hd', hj⟩
        · exact hfirst hj
        · exact .inr ⟨d', List.mem_cons_of_mem _ hd', hj⟩
      · exact hfirst h

/-- No path is looked at for two of the names. -/
def Apart (ldd : Ldd) (order deps : List OsString) : Prop :=
  ∀ d ∈ deps, ∀ d' ∈ deps, ∀ j ∈ ldd.lookedAt order d, j ∈ ldd.lookedAt order d' → d = d'

/-- The names so far say nothing about a name that was not among them. -/
theorem Apart.searchFrom_new {before : List OsString} (h : Apart ldd order deps)
    (hbefore : ∀ d ∈ before, d ∈ deps) (hdep : dep ∈ deps) (hnew : dep ∉ before) :
    let seen := (ldd.resolveFrom order ∅ before).seen
    (ldd.searchFrom order seen dep).found = (ldd.searchFrom order ∅ dep).found ∧
    (ldd.searchFrom order seen dep).taken = (ldd.searchFrom order ∅ dep).taken ∧
    (ldd.searchFrom order ∅ dep).seen ⊆ (ldd.searchFrom order seen dep).seen := by
  intro seen
  have hagree : ∀ j ∈ ldd.lookedAt order dep, j ∈ seen ↔ j ∈ (∅ : Finset OsString) := by
    intro j hj
    refine iff_of_false (fun hmem => ?_) (Finset.notMem_empty j)
    rcases resolveFrom_seen_sub hmem with hmem | ⟨d, hd, hjd⟩
    · exact Finset.notMem_empty j hmem
    · exact hnew (h dep hdep d (hbefore d hd) j hj hjd ▸ hd)
  obtain ⟨hfound, htaken, hseen⟩ := searchFrom_congr hagree
  refine ⟨hfound, htaken, ?_⟩
  rw [Finset.union_empty] at hseen
  rw [hseen]
  exact Finset.subset_union_left

/-- The loop comes to the end of the names if and only if each is found by itself;
then it has tried what a search for each of them tries. -/
theorem Apart.reaches {before : List OsString} (h : Apart ldd order deps)
    (hbefore : ∀ d ∈ before, d ∈ deps) :
    ((ldd.resolveFrom order ∅ before).missing = none ↔
      ∀ d ∈ before, (ldd.searchFrom order ∅ d).found = true) ∧
    ((ldd.resolveFrom order ∅ before).missing = none → ∀ d ∈ before,
      (ldd.searchFrom order ∅ d).seen ⊆ (ldd.resolveFrom order ∅ before).seen) := by
  induction before using List.reverseRecOn with
  | nil =>
      exact ⟨iff_of_true rfl (fun d hd => absurd hd List.not_mem_nil),
        fun _ d hd => absurd hd List.not_mem_nil⟩
  | append_singleton before d ih =>
      have hsub : ∀ d ∈ before, d ∈ deps := fun d hd => hbefore d (List.mem_append_left _ hd)
      have hd : d ∈ deps := hbefore d (List.mem_append_right _ List.mem_cons_self)
      obtain ⟨hreach, hseen⟩ := ih hsub
      by_cases hnone : (ldd.resolveFrom order ∅ before).missing = none
      swap
      · rw [resolveFrom_append_of_missing _ hnone]
        refine ⟨iff_of_false hnone fun hall => ?_, fun habs => absurd habs hnone⟩
        exact hnone (hreach.mpr fun d hd => hall d (List.mem_append_left _ hd))
      have hall := hreach.mp hnone
      -- the last name is found as it is from the start, and so is what it tries
      have hlast : (ldd.searchFrom order (ldd.resolveFrom order ∅ before).seen d).found =
            (ldd.searchFrom order ∅ d).found ∧
          (ldd.searchFrom order ∅ d).seen ⊆
            (ldd.searchFrom order (ldd.resolveFrom order ∅ before).seen d).seen := by
        by_cases hmem : d ∈ before
        · rw [searchFrom_again (hall d hmem) (hseen hnone d hmem)]
          exact ⟨(hall d hmem).symm, hseen hnone d hmem⟩
        · obtain ⟨hfound, _, hsub⟩ := h.searchFrom_new hsub hd hmem
          exact ⟨hfound, hsub⟩
      rw [resolveFrom_append _ hnone, resolveFrom]
      dsimp only
      rw [hlast.1]
      cases hfound : (ldd.searchFrom order ∅ d).found with
      | true =>
          rw [if_pos rfl]
          refine ⟨iff_of_true rfl ?_, fun _ e he => ?_⟩
          · intro e he
            rcases List.mem_append.mp he with he | he
            · exact hall e he
            · rw [List.mem_singleton.mp he, hfound]
          · rcases List.mem_append.mp he with he | he
            · exact (hseen hnone e he).trans searchFrom_seen_mono
            · rw [List.mem_singleton.mp he]
              exact hlast.2
      | false =>
          rw [if_neg Bool.false_ne_true]
          refine ⟨iff_of_false (fun h => by cases h) fun hfound' => ?_, fun h => by cases h⟩
          have hd := hfound' d (List.mem_append_right _ List.mem_cons_self)
          rw [hfound] at hd
          cases hd

theorem eq_takeWhile (h : dep ∈ deps) :
    ∃ after, deps = deps.takeWhile (fun d => d ≠ dep) ++ dep :: after := by
  obtain ⟨before, after, rfl, hnew⟩ := List.eq_append_cons_of_mem h
  refine ⟨after, ?_⟩
  rw [List.takeWhile_append_of_pos (fun d hd => by
    simpa using fun heq : d = dep => hnew (heq ▸ hd)), List.takeWhile_cons_of_neg (by simp),
    List.append_nil]

theorem takeWhile_of_new {before after : List OsString} (h : dep ∉ before) :
    (before ++ dep :: after).takeWhile (fun d => d ≠ dep) = before := by
  rw [List.takeWhile_append_of_pos (fun d hd => by
    simpa using fun heq : d = dep => h (heq ▸ hd)), List.takeWhile_cons_of_neg (by simp),
    List.append_nil]

theorem not_mem_takeWhile : dep ∉ deps.takeWhile (fun d => d ≠ dep) := by
  intro h
  have hne := List.all_eq_true.mp List.all_takeWhile dep h
  simp at hne

/-- A candidate of a name is taken when the names before it are found and it is
offered to a search by itself. -/
theorem Apart.mem_taken (h : Apart ldd order deps) (hdep : dep ∈ deps)
    (hown : ∀ d ∈ deps, j ∈ ldd.lookedAt order d → d = dep) :
    j ∈ (ldd.resolveFrom order ∅ deps).taken ↔
      (∀ d ∈ deps.takeWhile (fun d => d ≠ dep), (ldd.searchFrom order ∅ d).found = true) ∧
      Offers ldd order ∅ dep j := by
  obtain ⟨after, hsplit⟩ := eq_takeWhile hdep
  have hsub : ∀ d ∈ deps.takeWhile (fun d => d ≠ dep), d ∈ deps :=
    fun d hd => hsplit ▸ List.mem_append_left _ hd
  constructor
  · intro hj
    obtain ⟨before, d, rest, heq, hnone, hoffer⟩ := mem_resolveFrom_taken.mp hj
    have hbefore : ∀ d ∈ before, d ∈ deps := fun d hd => heq ▸ List.mem_append_left _ hd
    have hd : d ∈ deps := heq ▸ List.mem_append_right _ List.mem_cons_self
    obtain rfl := hown d hd hoffer.lookedAt
    obtain ⟨hreach, hseen⟩ := h.reaches hbefore
    have hnew : d ∉ before := by
      intro hmem
      have htaken := mem_searchFrom_taken.mpr hoffer
      rw [searchFrom_again (hreach.mp hnone d hmem) (hseen hnone d hmem)] at htaken
      cases htaken
    rw [heq, takeWhile_of_new hnew]
    refine ⟨hreach.mp hnone, ?_⟩
    rw [← mem_searchFrom_taken, ← (h.searchFrom_new hbefore hd hnew).2.1, mem_searchFrom_taken]
    exact hoffer
  · intro hex
    obtain ⟨hfound, hoffer⟩ := hex
    refine mem_resolveFrom_taken.mpr ⟨_, dep, after, hsplit, (h.reaches hsub).1.mpr hfound, ?_⟩
    rw [← mem_searchFrom_taken, (h.searchFrom_new hsub hdep not_mem_takeWhile).2.1,
      mem_searchFrom_taken]
    exact hoffer

end Names

/-! ## `recurse` -/

section Recurse

variable {path : OsString}

theorem unprovided_iff {dirs order : List OsString} (h : OrderOf dirs order) {d : OsString} :
    Unprovided ldd dirs d ↔ (ldd.searchFrom order ∅ d).found = false := by
  have hperm : (ldd.inDirs (dirs.dedup ++ ldd.defaultLibdir) d).Perm
      (ldd.inDirs (order ++ ldd.defaultLibdir) d) :=
    inDirs_perm (h.perm.append_right ldd.defaultLibdir)
  rw [Unprovided, searchFrom_missed]
  exact and_congr_right fun _ => ⟨fun hall => hall.perm hperm,
    fun hall => AllMissed.perm hall hperm.symm⟩

/-- The candidates that `recurse` enqueues for a name. -/
theorem mem_enqueued {sc : Scanned} (hscan : ldd.fs.scan path ∅ = .ok sc)
    (hseparate : ldd.SeparateNames path) (iter : Iter) (shared : Shared ldd.fs)
    (hvisited : shared.visited = ∅) {dep c : OsString} (hdep : dep ∈ sc.deps)
    (hc : Candidate ldd sc.lpaths dep c) :
    ldd.fs.spelling c ∈ ((ldd.recurse iter path ∅).alone ldd.system shared).enqueued.map Item.path ↔
      (∀ d ∈ sc.deps.takeWhile (fun d => d ≠ dep), ¬ Unprovided ldd (ldd.fs.runDirs path) d) ∧
      Offers ldd (iter.val sc.lpaths) ∅ dep (ldd.fs.spelling c) := by
  have hdirs : sc.lpaths = (ldd.fs.runDirs path).toFinset := by
    rw [scan_lpaths hscan, Finset.empty_union]
  have horder : OrderOf (ldd.fs.runDirs path) (iter.val sc.lpaths) := hdirs ▸ OrderOf.iter iter _
  have hlooked {d j : OsString} (hj : j ∈ ldd.lookedAt (iter.val sc.lpaths) d) :
      ∃ c, Candidate ldd sc.lpaths d c ∧ ldd.fs.spelling c = j :=
    (mem_candidates hdirs).mpr (horder.stages hj)
  have hapart : Apart ldd (iter.val sc.lpaths) sc.deps := by
    intro d hd d' hd' j hj hj'
    obtain ⟨c, hc, rfl⟩ := hlooked hj
    obtain ⟨c', hc', heq⟩ := hlooked hj'
    exact hseparate sc hscan d hd d' hd' c c' hc hc' heq.symm
  have hpaths (items : List OsString) : (itemsOf sc.lpaths items).map Item.path = items := by
    rw [itemsOf, List.map_map]
    exact List.map_id items
  rw [(recurse_alone shared hscan).2, hpaths, hvisited, hapart.mem_taken hdep]
  · refine and_congr_left fun _ => forall₂_congr fun d _ => ?_
    rw [unprovided_iff horder, Bool.not_eq_false]
  · intro d hd hj
    obtain ⟨c', hc', heq⟩ := hlooked hj
    exact hseparate sc hscan d hd dep hdep c' c hc' hc heq

/-- In an empty destination, what `recurse` enqueues for the names of an object that
inherits nothing follows the search order where the names are orderly, as long as
no two names are looked for at one path; and then only there. -/
theorem recurse_inSearchOrder (ldd : Ldd) (path : OsString) (hdest : ldd.EmptyDest) :
    (ldd.SeparateNames path → ldd.Orderly path → ldd.InSearchOrder path) ∧
    (ldd.SeparateNames path → ldd.InSearchOrder path → ldd.Orderly path) := by
  constructor
  · intro hseparate horderly sc hscan iter shared hvisited dep hdep c hc
    have hdirs : sc.lpaths = (ldd.fs.runDirs path).toFinset := by
      rw [scan_lpaths hscan, Finset.empty_union]
    have horder : OrderOf (ldd.fs.runDirs path) (iter.val sc.lpaths) := hdirs ▸ OrderOf.iter iter _
    have hstages := (mem_candidates hdirs).mp ⟨c, hc, rfl⟩
    rw [mem_enqueued hscan hseparate iter shared hvisited hdep hc]
    constructor
    · intro hex
      obtain ⟨_, hoffer⟩ := hex
      have hne := expected_ne_nil hstages ((hdest.installable _).symm.trans hoffer.installable)
      exact ((horderly sc hscan dep hdep hne).2.offers_iff hdest horder).mp hoffer
    · intro hc
      obtain ⟨hbefore, hdecided⟩ := horderly sc hscan dep hdep (List.ne_nil_of_mem hc)
      exact ⟨hbefore, (hdecided.offers_iff hdest horder).mpr hc⟩
  · intro hseparate hall sc hscan dep hdep hne
    have hdirs : sc.lpaths = (ldd.fs.runDirs path).toFinset := by
      rw [scan_lpaths hscan, Finset.empty_union]
    have hiff (iter : Iter) (c : OsString) (hc : Candidate ldd sc.lpaths dep c) :=
      (mem_enqueued hscan hseparate iter ⟨∅, ∅⟩ rfl hdep hc).symm.trans
        (hall sc hscan iter ⟨∅, ∅⟩ rfl dep hdep c hc)
    obtain ⟨e, he⟩ := List.exists_mem_of_ne_nil _ hne
    obtain ⟨c, hc, rfl⟩ := (mem_candidates hdirs).mpr (expected_candidate he).1
    obtain ⟨iter, _⟩ := (OrderOf.dedup (ldd.fs.runDirs path)).exists_iter
    have hbefore := ((hiff iter c hc).mpr he).1
    refine ⟨hbefore, decided_of_offers hdest hne fun order horder j => ?_⟩
    obtain ⟨iter, hiter⟩ := horder.exists_iter
    have hcandidate : (∃ c, Candidate ldd sc.lpaths dep c ∧ ldd.fs.spelling c = j) →
        (Offers ldd order ∅ dep j ↔ j ∈ ldd.expected (ldd.fs.runDirs path) dep) := by
      intro hex
      obtain ⟨c, hc, hj⟩ := hex
      subst hj
      rw [← hiff iter c hc, hdirs, hiter]
      exact ⟨fun h => ⟨hbefore, h⟩, fun h => h.2⟩
    constructor
    · intro hoffer
      exact (hcandidate ((mem_candidates hdirs).mpr (horder.stages hoffer.lookedAt))).mp hoffer
    · intro hj
      exact (hcandidate ((mem_candidates hdirs).mpr (expected_candidate hj).1)).mpr hj

end Recurse

end Ldd

namespace Sample

/-- `/a` lists `/ra` and `/rb`, and needs `x`. -/
def choosingFiles (libs : List (OsString × List UInt8)) : List (OsString × List UInt8) :=
  (ascii "/a", object [(1, 1), (15, 3), (0, 0)] (0 :: (ascii "x" ++ 0 :: ascii "/ra:/rb"))) :: libs

theorem choosing_parents {libs : List (OsString × List UInt8)}
    (hlibs : ∀ lib ∈ libs, parent lib.1 ≠ none) : ∀ file ∈ choosingFiles libs,
      parent file.1 ≠ none := by
  intro file hfile
  rcases List.mem_cons.mp hfile with heq | hfile
  · rw [heq]
    decide
  · exact hlibs file hfile

def choosingDirs : List (List OsString) := [[], [ascii "ra"], [ascii "rb"]]

theorem choosing_names : ∀ names ∈ choosingDirs, ∀ name ∈ names, EntryName name := by decide

def choosing (libs : List (OsString × List UInt8)) (hlibs : ∀ lib ∈ libs, parent lib.1 ≠ none) :
    Ldd where
  fs := FileSystem.plain choosingDirs (choosingFiles libs) choosing_names (choosing_parents hlibs)
  ldSoCache := none
  defaultLibdir := standardLibdirs
  destPath := ascii "/dest"

theorem choosing_emptyDest {libs : List (OsString × List UInt8)}
    (hlibs : ∀ lib ∈ libs, parent lib.1 ≠ none)
    (hdest : ∀ lib ∈ libs, ¬ ascii "/dest" <+: lib.1) : (choosing libs hlibs).EmptyDest := by
  intro path
  refine Bool.eq_false_iff.mpr fun h => ?_
  have hmem := (FileSystem.plain_pathExists choosing_names (choosing_parents hlibs)).mp h
  have hinit : ascii "/dest" <+: ascii "/dest" ++ path := List.prefix_append _ _
  rw [choosingFiles, List.map_cons, List.append_cons] at hmem
  rcases List.mem_append.mp hmem with hmem | hmem
  · have hall : ∀ p ∈ [[], [ascii "ra"], [ascii "rb"]].map absolute ++ [ascii "/a"],
        ¬ ascii "/dest" <+: p := by decide
    exact hall _ hmem hinit
  · obtain ⟨lib, hlib, heq⟩ := List.mem_map.mp hmem
    exact hdest lib hlib (heq ▸ hinit)

/-- Only the first directory holds `x`. -/
def inFirst : Ldd := choosing [(ascii "/ra/x", object [(0, 0)] [])] (by decide)

theorem inFirst_scan :
    inFirst.fs.scan (ascii "/a") ∅ = .ok ⟨{ascii "/ra", ascii "/rb"}, [ascii "x"]⟩ := by
  decide +kernel

theorem inFirst_dirs : inFirst.fs.runDirs (ascii "/a") = [ascii "/ra", ascii "/rb"] := by
  decide +kernel

theorem inFirst_inSearchOrder : inFirst.InSearchOrder (ascii "/a") := by
  refine (Ldd.recurse_inSearchOrder inFirst (ascii "/a")
    (choosing_emptyDest _ (by decide))).1 ?_ ?_
  · intro sc hscan d hd d' hd' _ _ _ _ _
    obtain rfl := Outcome.ok.inj (inFirst_scan.symm.trans hscan)
    rw [List.mem_singleton.mp hd, List.mem_singleton.mp hd']
  · intro sc hscan dep hdep _
    obtain rfl := Outcome.ok.inj (inFirst_scan.symm.trans hscan)
    rw [List.mem_singleton.mp hdep, inFirst_dirs]
    have hfirst : [ascii "x"].takeWhile (fun d => decide (d ≠ ascii "x")) = [] := by decide
    refine ⟨fun d hd => absurd (hfirst ▸ hd) List.not_mem_nil, .inDirs ?_ ?_ ?_⟩
    · decide +kernel
    · decide +kernel
    · decide +kernel

/-- Both directories hold `x`. -/
def inBoth : Ldd :=
  choosing [(ascii "/ra/x", object [(0, 0)] []), (ascii "/rb/x", object [(0, 0)] [])] (by decide)

theorem inBoth_disordered :
    ¬ ∀ (ldd : Ldd) (path : OsString), ldd.EmptyDest → ldd.InSearchOrder path := by
  intro h
  have hscan : inBoth.fs.scan (ascii "/a") ∅ =
      .ok ⟨{ascii "/ra", ascii "/rb"}, [ascii "x"]⟩ := by decide +kernel
  rw [show ({ascii "/ra", ascii "/rb"} : Finset OsString) =
    [ascii "/rb", ascii "/ra"].toFinset from by decide] at hscan
  have horder : Ldd.OrderOf [ascii "/rb", ascii "/ra"] [ascii "/rb", ascii "/ra"] :=
    ⟨by decide, fun _ => Iff.rfl⟩
  obtain ⟨iter, hiter⟩ := horder.exists_iter
  have hsecond := h inBoth (ascii "/a") (choosing_emptyDest _ (by decide)) _ hscan iter ⟨∅, ∅⟩ rfl
    (ascii "x") (by decide) _ (.inDirs (ascii "/rb") (by decide))
  rw [(Ldd.recurse_alone _ hscan).2] at hsecond
  dsimp only at hsecond
  rw [hiter] at hsecond
  have htaken : inBoth.fs.spelling (push (ascii "/rb") (ascii "x")) ∈
      (Ldd.itemsOf [ascii "/rb", ascii "/ra"].toFinset
        (inBoth.resolveFrom [ascii "/rb", ascii "/ra"] ∅ [ascii "x"]).taken).map Item.path := by
    decide +kernel
  have hnot : inBoth.fs.spelling (push (ascii "/rb") (ascii "x")) ∉
      inBoth.expected (inBoth.fs.runDirs (ascii "/a")) (ascii "x") := by decide +kernel
  exact hnot (hsecond.mp htaken)

end Sample
end Elfkit
end DracutInstall

/-
What `recurse` does about a name it cannot find.

A name is missing when no candidate can be installed.  The candidates that are
below `dest_path` already count as not found in the directories, unlike at the
paths the cache lists, so that an object whose libraries have been installed is
reported.  And the report ends the loop over the names, with what comes behind.
-/
import DracutInstall.Elfkit.LddAlone
import DracutInstall.Elfkit.LddClosure

namespace DracutInstall
namespace Elfkit

open ByteCodec Rust UnixPath WorkList Probe

namespace Ldd

variable {ldd : Ldd}

/-! ## False reports -/

/-- A name that `recurse` reports has no candidate that exists. -/
def ReportsAbsent (ldd : Ldd) (iter : Iter) (path : OsString) (lpaths : Finset OsString)
    (shared : Shared ldd.fs) : Prop :=
  ∀ dep dirs, ((ldd.recurse iter path lpaths).alone ldd.system shared).result =
      some (.error (.unableToFindDependency dep dirs)) →
    ∀ c, Candidate ldd dirs dep c → ldd.fs.pathExists (ldd.fs.spelling c) = false

/-- A name that is reached, not listed and has only candidates nobody has tried has
one that is not below `dest_path`, if one of them exists. -/
def LeftToInstall (ldd : Ldd) (iter : Iter) (path : OsString) (lpaths : Finset OsString)
    (visited : Finset OsString) : Prop :=
  ∀ sc, ldd.fs.scan path lpaths = .ok sc → ∀ before dep after, sc.deps = before ++ dep :: after →
    (ldd.resolveFrom (iter.val sc.lpaths) visited before).missing = none →
    ldd.listed dep = none →
    Fresh (ldd.resolveFrom (iter.val sc.lpaths) visited before).seen
      (ldd.inDirs (iter.val sc.lpaths ++ ldd.defaultLibdir) dep) →
    (∃ j ∈ ldd.inDirs (iter.val sc.lpaths ++ ldd.defaultLibdir) dep,
      ldd.fs.pathExists j = true) →
    ∃ j ∈ ldd.inDirs (iter.val sc.lpaths ++ ldd.defaultLibdir) dep,
      ldd.fs.pathExists j = true ∧ ldd.inDest j = false

theorem installable_iff {j : OsString} :
    ldd.installable j = true ↔ ldd.fs.pathExists j = true ∧ ldd.inDest j = false := by
  rw [installable, Bool.and_eq_true_iff, Bool.not_eq_true']

theorem mem_inDirs {dirs : List OsString} {dep j : OsString} :
    j ∈ ldd.inDirs dirs dep ↔ ∃ dir ∈ dirs, ldd.candidate dep dir = j := List.mem_map

/-- The candidates of a name that is not listed are in the directories. -/
theorem candidate_iff_inDirs (iter : Iter) {lpaths : Finset OsString} {dep j : OsString}
    (hlisted : ldd.listed dep = none) :
    (∃ c, Candidate ldd lpaths dep c ∧ ldd.fs.spelling c = j) ↔
      j ∈ ldd.inDirs (iter.val lpaths ++ ldd.defaultLibdir) dep := by
  have hiter (dir : OsString) : dir ∈ iter.val lpaths ↔ dir ∈ lpaths := (iter.property lpaths).2 dir
  rw [mem_inDirs]
  constructor
  · intro hex
    obtain ⟨c, hc, hj⟩ := hex
    cases hc with
    | inDirs dir hdir => exact ⟨dir, List.mem_append_left _ ((hiter dir).mpr hdir), hj⟩
    | inCache vals f hvals _ =>
        rw [hlisted] at hvals
        cases hvals
    | inDefault dir hdir => exact ⟨dir, List.mem_append_right _ hdir, hj⟩
  · intro hex
    obtain ⟨dir, hdir, hj⟩ := hex
    rcases List.mem_append.mp hdir with hdir | hdir
    · exact ⟨_, .inDirs dir ((hiter dir).mp hdir), hj⟩
    · exact ⟨_, .inDefault dir hdir, hj⟩

/-- `recurse` reports only names without a candidate that exists if and only if no
name is reached whose candidates exist below `dest_path` alone. -/
theorem recurse_reportsAbsent_iff (ldd : Ldd) (iter : Iter) (path : OsString)
    (lpaths : Finset OsString) (shared : Shared ldd.fs) :
    ldd.ReportsAbsent iter path lpaths shared ↔
      ldd.LeftToInstall iter path lpaths shared.visited := by
  constructor
  · intro h sc hscan before dep after hdeps hnone hlisted hfresh hexists
    refine Classical.byContradiction fun hall => ?_
    have hmissed : (ldd.searchFrom (iter.val sc.lpaths)
        (ldd.resolveFrom (iter.val sc.lpaths) shared.visited before).seen dep).found = false := by
      refine searchFrom_missed.mpr ⟨hlisted, hfresh, ?_⟩
      intro j hj
      refine Bool.eq_false_iff.mpr fun hinst => hall ⟨j, hj, ?_⟩
      exact installable_iff.mp hinst
    have hreport := (recurse_reports shared).mpr ⟨sc, hscan, rfl,
      resolveFrom_missing.mpr ⟨before, after, hdeps, hnone, hmissed⟩⟩
    obtain ⟨j, hj, hex⟩ := hexists
    obtain ⟨c, hc, rfl⟩ := (candidate_iff_inDirs iter hlisted).mpr hj
    rw [h dep sc.lpaths hreport c hc] at hex
    cases hex
  · intro h dep dirs hreport c hc
    obtain ⟨sc, hscan, rfl, hmissing⟩ := (recurse_reports shared).mp hreport
    obtain ⟨before, after, hdeps, hnone, hmissed⟩ := resolveFrom_missing.mp hmissing
    obtain ⟨hlisted, hfresh, hnot⟩ := searchFrom_missed.mp hmissed
    refine Bool.eq_false_iff.mpr fun hex => ?_
    have hj := (candidate_iff_inDirs iter hlisted).mp ⟨c, hc, rfl⟩
    obtain ⟨j, hj, hinst⟩ := h sc hscan before dep after hdeps hnone hlisted hfresh ⟨_, hj, hex⟩
    have hno := hnot j hj
    rw [installable_iff.mpr hinst] at hno
    cases hno

/-! ## Lost names -/

/-- The names behind a name that is not to be found are searched for as if it were
not there: the loop has ended before it, or it is reported with nothing to find
behind it, or its search met a path in `visited` and no path of the others. -/
inductive KeepsOthers (ldd : Ldd) (dirs : List OsString) (visited : Finset OsString)
    (ds₁ : List OsString) (m : OsString) (ds₂ : List OsString) : Prop
  | endedBefore : (ldd.resolveFrom dirs visited ds₁).missing ≠ none →
      KeepsOthers ldd dirs visited ds₁ m ds₂
  | nothingBehind : Fresh (ldd.resolveFrom dirs visited ds₁).seen (ldd.lookedAt dirs m) →
      (∀ before d after, ds₂ = before ++ d :: after →
        (ldd.resolveFrom dirs (ldd.resolveFrom dirs visited ds₁).seen before).missing = none →
        ∀ j, ¬ Offers ldd dirs
          (ldd.resolveFrom dirs (ldd.resolveFrom dirs visited ds₁).seen before).seen d j) →
      KeepsOthers ldd dirs visited ds₁ m ds₂
  | met : ¬ Fresh (ldd.resolveFrom dirs visited ds₁).seen (ldd.lookedAt dirs m) →
      (∀ d ∈ ds₂, d = m ∨ ∀ j ∈ ldd.lookedAt dirs d, j ∉ ldd.lookedAt dirs m) →
      KeepsOthers ldd dirs visited ds₁ m ds₂

section Absent

variable {dirs : List OsString} {m : OsString}

/-- No path a search for the name looks at can be installed, and it is not listed. -/
structure Absent (ldd : Ldd) (dirs : List OsString) (m : OsString) : Prop where
  unlisted : ldd.listed m = none
  missed : ∀ j ∈ ldd.lookedAt dirs m, ldd.installable j = false

theorem lookedAt_of_unlisted (h : ldd.listed m = none) :
    ldd.lookedAt dirs m = ldd.inDirs (dirs ++ ldd.defaultLibdir) m := by
  rw [lookedAt, h, inDirs, inDirs, inDirs, List.map_append]

theorem Absent.found_iff (h : Absent ldd dirs m) {seen : Finset OsString} :
    (ldd.searchFrom dirs seen m).found = true ↔ ¬ Fresh seen (ldd.lookedAt dirs m) := by
  rw [← Bool.not_eq_false, searchFrom_missed, ← lookedAt_of_unlisted h.unlisted]
  constructor
  · exact fun hnot hfresh => hnot ⟨h.unlisted, hfresh, h.missed⟩
  · exact fun hnot hall => hnot hall.2.1

theorem Absent.taken (h : Absent ldd dirs m) (seen : Finset OsString) :
    (ldd.searchFrom dirs seen m).taken = [] := by
  refine List.eq_nil_iff_forall_not_mem.mpr fun j hj => ?_
  have hoffer := mem_searchFrom_taken.mp hj
  have hno := h.missed j hoffer.lookedAt
  rw [hoffer.installable] at hno
  cases hno

/-- Two sets that differ in paths of the absent name alone, in both of which its
search meets a path. -/
structure Behind (ldd : Ldd) (dirs : List OsString) (m : OsString)
    (seen seen' : Finset OsString) : Prop where
  agree : ∀ j, j ∉ ldd.lookedAt dirs m → (j ∈ seen ↔ j ∈ seen')
  left : ¬ Fresh seen (ldd.lookedAt dirs m)
  right : ¬ Fresh seen' (ldd.lookedAt dirs m)

theorem mem_searchFrom_self {seen : Finset OsString} {d j : OsString}
    (hj : j ∉ ldd.lookedAt dirs d) : j ∈ (ldd.searchFrom dirs seen d).seen ↔ j ∈ seen := by
  constructor
  · intro h
    rcases Finset.mem_union.mp (searchFrom_seen_sub h) with h | h
    · exact h
    · exact absurd (List.mem_toFinset.mp h) hj
  · exact fun h => searchFrom_seen_mono h

/-- The names behind are found alike from two such sets. -/
theorem Absent.resolve_behind (h : Absent ldd dirs m) {ds : List OsString}
    (hds : ∀ d ∈ ds, d = m ∨ ∀ j ∈ ldd.lookedAt dirs d, j ∉ ldd.lookedAt dirs m)
    {seen seen' : Finset OsString} (hbehind : Behind ldd dirs m seen seen') :
    (ldd.resolveFrom dirs seen ds).taken = (ldd.resolveFrom dirs seen' ds).taken := by
  induction ds generalizing seen seen' with
  | nil => rfl
  | cons d ds ih =>
      have hrest := fun e he => hds e (List.mem_cons_of_mem d he)
      have hleft : ¬ Fresh (ldd.searchFrom dirs seen d).seen (ldd.lookedAt dirs m) :=
        fun hfresh => hbehind.left (hfresh.mono searchFrom_seen_mono)
      have hright : ¬ Fresh (ldd.searchFrom dirs seen' d).seen (ldd.lookedAt dirs m) :=
        fun hfresh => hbehind.right (hfresh.mono searchFrom_seen_mono)
      rw [resolveFrom, resolveFrom]
      dsimp only
      rcases hds d List.mem_cons_self with hdm | hapart
      · subst hdm
        rw [if_pos (h.found_iff.mpr hbehind.left), if_pos (h.found_iff.mpr hbehind.right),
          h.taken, h.taken]
        refine ih hrest ⟨?_, hleft, hright⟩
        intro j hj
        rw [mem_searchFrom_self hj, mem_searchFrom_self hj]
        exact hbehind.agree j hj
      · have hagree : ∀ j ∈ ldd.lookedAt dirs d, j ∈ seen ↔ j ∈ seen' :=
          fun j hj => hbehind.agree j (hapart j hj)
        obtain ⟨hfound, htaken, hseen⟩ := searchFrom_congr hagree
        rw [← hfound, ← htaken]
        split
        · dsimp only
          rw [ih hrest ⟨?_, hleft, hright⟩]
          intro j hj
          have hj' := Finset.ext_iff.mp hseen j
          simp only [Finset.mem_union] at hj'
          have hsub : j ∈ seen → j ∈ (ldd.searchFrom dirs seen d).seen :=
            fun hmem => searchFrom_seen_mono hmem
          have hsub' : j ∈ seen' → j ∈ (ldd.searchFrom dirs seen' d).seen :=
            fun hmem => searchFrom_seen_mono hmem
          have hagree := hbehind.agree j hj
          tauto
        · rfl

/-- What is taken with and without the absent name. -/
theorem Absent.same_iff (h : Absent ldd dirs m) (visited : Finset OsString)
    (ds₁ ds₂ : List OsString) :
    (KeepsOthers ldd dirs visited ds₁ m ds₂ →
      ∀ j, j ∈ (ldd.resolveFrom dirs visited (ds₁ ++ m :: ds₂)).taken ↔
        j ∈ (ldd.resolveFrom dirs visited (ds₁ ++ ds₂)).taken) ∧
    ((∀ d ∈ ds₂, d = m ∨ ∀ j ∈ ldd.lookedAt dirs d, j ∉ ldd.lookedAt dirs m) →
      (∀ j, j ∈ (ldd.resolveFrom dirs visited (ds₁ ++ m :: ds₂)).taken ↔
        j ∈ (ldd.resolveFrom dirs visited (ds₁ ++ ds₂)).taken) →
      KeepsOthers ldd dirs visited ds₁ m ds₂) := by
  by_cases hmissing : (ldd.resolveFrom dirs visited ds₁).missing = none
  swap
  · rw [resolveFrom_append_of_missing _ hmissing, resolveFrom_append_of_missing _ hmissing]
    exact ⟨fun _ _ => Iff.rfl, fun _ _ => .endedBefore hmissing⟩
  rw [resolveFrom_append _ hmissing, resolveFrom_append _ hmissing, resolveFrom]
  dsimp only
  generalize hseen : (ldd.resolveFrom dirs visited ds₁).seen = seen
  by_cases hfresh : Fresh seen (ldd.lookedAt dirs m)
  · have hfound : ¬ (ldd.searchFrom dirs seen m).found = true :=
      fun hfound => h.found_iff.mp hfound hfresh
    rw [if_neg hfound]
    simp only [List.append_nil]
    constructor
    · intro hkeeps j
      refine ⟨fun hj => List.mem_append_left _ hj, fun hj => ?_⟩
      rcases List.mem_append.mp hj with hj | hj
      · exact hj
      · obtain ⟨before, d, after, heq, hnone, hoffer⟩ := mem_resolveFrom_taken.mp hj
        cases hkeeps with
        | endedBefore hends => exact absurd hmissing hends
        | nothingBehind _ hnothing =>
            rw [hseen] at hnothing
            exact absurd hoffer (hnothing before d after heq hnone j)
        | met hmet _ => exact absurd (hseen ▸ hfresh) hmet
    · intro _ hsame
      refine .nothingBehind (hseen ▸ hfresh) ?_
      rw [hseen]
      intro before d after heq hnone j hoffer
      have hj := mem_resolveFrom_taken.mpr ⟨before, d, after, heq, hnone, hoffer⟩
      have hbefore := (hsame j).mpr (List.mem_append_right _ hj)
      exact resolveFrom_taken_new hj (hseen ▸ resolveFrom_taken_seen hbefore)
  · rw [if_pos (h.found_iff.mpr hfresh), h.taken, List.nil_append]
    have hbehind : Behind ldd dirs m (ldd.searchFrom dirs seen m).seen seen :=
      ⟨fun j hj => mem_searchFrom_self hj, fun hnew => hfresh (hnew.mono searchFrom_seen_mono),
        hfresh⟩
    constructor
    · intro hkeeps j
      cases hkeeps with
      | endedBefore hends => exact absurd hmissing hends
      | nothingBehind hnew _ => exact absurd (hseen ▸ hnew) hfresh
      | met _ hapart => rw [h.resolve_behind hapart hbehind]
    · exact fun hapart _ => .met (hseen.symm ▸ hfresh) hapart

end Absent

theorem mem_itemsOf {lpaths : Finset OsString} {paths : List OsString} {item : Item} :
    item ∈ itemsOf lpaths paths ↔ item.lpaths = lpaths ∧ item.path ∈ paths := by
  rw [itemsOf, List.mem_map]
  constructor
  · intro hex
    obtain ⟨path, hpath, heq⟩ := hex
    subst heq
    exact ⟨rfl, hpath⟩
  · intro hex
    obtain ⟨hdirs, hpath⟩ := hex
    subst hdirs
    exact ⟨item.path, hpath, rfl⟩

/-- `recurse` enqueues the same for two objects, one of which needs a name more that
nothing provides, when that name keeps the others; and only then if no later name
is looked for at the paths of that one. -/
theorem recurse_keepsOthers (iter : Iter) (shared : Shared ldd.fs) {path path' : OsString}
    {lpaths dirs : Finset OsString} {ds₁ ds₂ : List OsString} {m : OsString}
    (hscan : ldd.fs.scan path lpaths = .ok ⟨dirs, ds₁ ++ m :: ds₂⟩)
    (hscan' : ldd.fs.scan path' lpaths = .ok ⟨dirs, ds₁ ++ ds₂⟩) (hlisted : ldd.listed m = none)
    (habsent : ∀ c, Candidate ldd dirs m c → ldd.fs.pathExists (ldd.fs.spelling c) = false) :
    (KeepsOthers ldd (iter.val dirs) shared.visited ds₁ m ds₂ →
      ∀ item, item ∈ ((ldd.recurse iter path lpaths).alone ldd.system shared).enqueued ↔
        item ∈ ((ldd.recurse iter path' lpaths).alone ldd.system shared).enqueued) ∧
    ((∀ d ∈ ds₂, d = m ∨ ∀ j ∈ ldd.lookedAt (iter.val dirs) d,
        j ∉ ldd.lookedAt (iter.val dirs) m) →
      (∀ item, item ∈ ((ldd.recurse iter path lpaths).alone ldd.system shared).enqueued ↔
        item ∈ ((ldd.recurse iter path' lpaths).alone ldd.system shared).enqueued) →
      KeepsOthers ldd (iter.val dirs) shared.visited ds₁ m ds₂) := by
  have hmissing : Absent ldd (iter.val dirs) m := by
    refine ⟨hlisted, fun j hj => ?_⟩
    rw [lookedAt_of_unlisted hlisted] at hj
    obtain ⟨c, hc, rfl⟩ := (candidate_iff_inDirs iter hlisted).mpr hj
    rw [installable, habsent c hc, Bool.false_and]
  obtain ⟨hsame, hkeeps⟩ := hmissing.same_iff shared.visited ds₁ ds₂
  rw [(recurse_alone shared hscan).2, (recurse_alone shared hscan').2]
  constructor
  · intro h item
    rw [mem_itemsOf, mem_itemsOf, hsame h item.path]
  · intro hapart h
    refine hkeeps hapart fun j => ?_
    have hj := h ⟨j, dirs⟩
    rw [mem_itemsOf, mem_itemsOf] at hj
    exact ⟨fun hmem => (hj.mp ⟨rfl, hmem⟩).2, fun hmem => (hj.mpr ⟨rfl, hmem⟩).2⟩

end Ldd

namespace Sample

/-- The library that `/a` needs is installed. -/
def installed : Ldd where
  fs := FileSystem.plain [[], [ascii "lib64"], [ascii "dest", ascii "lib64"]]
    [(ascii "/a", needing "x"), (ascii "/lib64/x", object [(0, 0)] []),
     (ascii "/dest/lib64/x", object [(0, 0)] [])] (by decide) (by decide)
  ldSoCache := none
  defaultLibdir := standardLibdirs
  destPath := ascii "/dest"

theorem iter_empty (iter : Ldd.Iter) : iter.val ∅ = [] := by
  refine List.eq_nil_iff_forall_not_mem.mpr fun dir hdir => ?_
  exact absurd (((iter.property ∅).2 dir).mp hdir) (Finset.notMem_empty dir)

theorem installed_reported :
    ¬ ∀ (ldd : Ldd) (iter : Ldd.Iter) (path : OsString) (lpaths : Finset OsString)
      (shared : Shared ldd.fs), ldd.ReportsAbsent iter path lpaths shared := by
  intro h
  have hscan : installed.fs.scan (ascii "/a") ∅ = .ok ⟨∅, [ascii "x"]⟩ := by decide +kernel
  have hreport : ((installed.recurse iter (ascii "/a") ∅).alone installed.system
      ⟨{ascii "/a"}, ∅⟩).result =
      some (.error (.unableToFindDependency (ascii "x") ∅)) := by
    refine (Ldd.recurse_reports _).mpr ⟨_, hscan, rfl, ?_⟩
    rw [iter_empty]
    decide +kernel
  have habsent := h installed iter (ascii "/a") ∅ ⟨{ascii "/a"}, ∅⟩ _ _ hreport _
    (.inDefault (ascii "/lib64") (by decide))
  have hexists : installed.fs.pathExists (installed.fs.spelling (push (ascii "/lib64") (ascii "x")))
      = true := by decide +kernel
  rw [habsent] at hexists
  cases hexists

/-- `/a` needs `x`, which is nowhere, and `y`; `/b` needs `y`. -/
def losingFiles : List (OsString × List UInt8) :=
  [(ascii "/a", object [(1, 1), (1, 3), (0, 0)] (0 :: (ascii "x" ++ 0 :: ascii "y"))),
   (ascii "/b", needing "y"), (ascii "/lib64/y", object [(0, 0)] [])]

theorem losing_parents : ∀ file ∈ losingFiles, parent file.1 ≠ none := by decide

def losingDirs : List (List OsString) := [[], [ascii "lib64"], [ascii "lib64", ascii "dyninst"]]

theorem losing_names : ∀ names ∈ losingDirs, ∀ name ∈ names, EntryName name := by decide

def losing : Ldd where
  fs := FileSystem.plain losingDirs losingFiles losing_names losing_parents
  ldSoCache := none
  defaultLibdir := standardLibdirs
  destPath := ascii "/dest"

theorem losing_scan_a :
    losing.fs.scan (ascii "/a") ∅ = .ok ⟨∅, [] ++ ascii "x" :: [ascii "y"]⟩ := by decide +kernel

theorem losing_scan_b : losing.fs.scan (ascii "/b") ∅ = .ok ⟨∅, [] ++ [ascii "y"]⟩ := by
  decide +kernel

theorem losing_absent {c : OsString} (h : Ldd.Candidate losing ∅ (ascii "x") c) :
    losing.fs.pathExists (losing.fs.spelling c) = false := by
  cases h with
  | inDirs dir hdir => cases hdir
  | inCache vals f hvals _ => cases hvals
  | inDefault dir hdir =>
      have hall : ∀ dir ∈ standardLibdirs,
          losing.fs.pathExists (losing.fs.spelling (push dir (ascii "x"))) = false := by
        decide +kernel
      exact hall dir hdir

/-- Where the first path of `x` has been tried before, `y` is found. -/
theorem losing_met :
    (⟨ascii "/lib64/y", ∅⟩ : Item) ∈ ((losing.recurse iter (ascii "/a") ∅).alone losing.system
      ⟨{ascii "/lib64/dyninst/x"}, ∅⟩).enqueued := by
  refine ((Ldd.recurse_keepsOthers iter ⟨{ascii "/lib64/dyninst/x"}, ∅⟩ losing_scan_a
    losing_scan_b rfl (fun c => losing_absent)).1 (.met ?_ ?_) _).mpr ?_
  · intro hfresh
    have hnew : ascii "/lib64/dyninst/x" ∉ ({ascii "/lib64/dyninst/x"} : Finset OsString) := by
      refine hfresh.new _ ?_
      rw [iter_empty]
      decide +kernel
    exact hnew (Finset.mem_singleton_self _)
  · rw [iter_empty]
    decide +kernel
  · rw [(Ldd.recurse_alone _ losing_scan_b).2, Ldd.mem_itemsOf, iter_empty]
    exact ⟨rfl, by decide +kernel⟩

theorem losing_loses :
    ¬ ∀ (ldd : Ldd) (iter : Ldd.Iter) (shared : Shared ldd.fs) (path path' : OsString)
      (lpaths dirs : Finset OsString) (ds₁ ds₂ : List OsString) (m : OsString),
      ldd.fs.scan path lpaths = .ok ⟨dirs, ds₁ ++ m :: ds₂⟩ →
      ldd.fs.scan path' lpaths = .ok ⟨dirs, ds₁ ++ ds₂⟩ → ldd.listed m = none →
      (∀ c, Ldd.Candidate ldd dirs m c → ldd.fs.pathExists (ldd.fs.spelling c) = false) →
      ∀ item, item ∈ ((ldd.recurse iter path lpaths).alone ldd.system shared).enqueued ↔
        item ∈ ((ldd.recurse iter path' lpaths).alone ldd.system shared).enqueued := by
  intro h
  have hsame := h losing iter ⟨∅, ∅⟩ _ _ _ _ _ _ _ losing_scan_a losing_scan_b rfl
    (fun c => losing_absent) ⟨ascii "/lib64/y", ∅⟩
  rw [(Ldd.recurse_alone _ losing_scan_a).2, (Ldd.recurse_alone _ losing_scan_b).2,
    Ldd.mem_itemsOf, Ldd.mem_itemsOf, iter_empty] at hsame
  have hlost : ascii "/lib64/y" ∉ (losing.resolveFrom [] ∅ [ascii "x", ascii "y"]).taken := by
    decide +kernel
  exact hlost (hsame.mpr ⟨rfl, by decide +kernel⟩).2

end Sample
end Elfkit
end DracutInstall

/-
What `ldd` returns under different schedules.

Where a path that is met in `visited` is an argument or can be installed, the
search for a name ends at its first candidate of that kind, whatever the schedule
was: `targets` are these candidates.  Two runs in which each object is searched
for along the same directories then take the same objects.  The directories
themselves do depend on the schedule, since an object inherits those of the
object that queued it.
-/
import DracutInstall.Elfkit.LddClosure

namespace DracutInstall
namespace Elfkit

open ByteCodec Rust UnixPath WorkList

namespace Ldd

variable {ldd : Ldd} {args : List OsString}

/-! ## Inherited directories -/

section Scan

variable {path : OsString} {lpaths : Finset OsString}

def Scanned.inherit (lpaths : Finset OsString) (sc : Scanned) : Scanned :=
  { sc with lpaths := lpaths ∪ sc.lpaths }

theorem scanEntry_inherit (sc : Scanned) (entry : Dynamic) :
    scanEntry path (Scanned.inherit lpaths sc) entry =
      (scanEntry path sc entry >>= fun sc => .ok (Scanned.inherit lpaths sc)) := by
  cases hcontent : entry.content with
  | string name offset =>
      simp only [scanEntry, hcontent]
      by_cases hpath : entry.dhtype = .rpath ∨ entry.dhtype = .runpath
      · rw [if_pos hpath, if_pos hpath]
        cases parent path with
        | none => rfl
        | some origin => simp [Scanned.inherit, Finset.union_assoc]
      · rw [if_neg hpath, if_neg hpath]
        split <;> rfl
  | none => simp [scanEntry, hcontent]
  | address value => simp [scanEntry, hcontent]
  | flags1 flags => simp [scanEntry, hcontent]

theorem scanEntries_inherit (entries : List Dynamic) (sc : Scanned) :
    scanEntries path (Scanned.inherit lpaths sc) entries =
      (scanEntries path sc entries >>= fun sc => .ok (Scanned.inherit lpaths sc)) := by
  induction entries generalizing sc with
  | nil => rfl
  | cons entry entries ih =>
      rw [scanEntries, scanEntries, scanEntry_inherit]
      cases scanEntry path sc entry with
      | ok sc => exact ih sc
      | err e => rfl
      | panic => rfl

theorem scanSections_inherit (file : List UInt8) (is : List Nat) (elf : Elf) (sc : Scanned) :
    scanSections file path is elf (Scanned.inherit lpaths sc) =
      (scanSections file path is elf sc >>= fun sc => .ok (Scanned.inherit lpaths sc)) := by
  induction is generalizing elf sc with
  | nil => rfl
  | cons i is ih =>
      rw [scanSections, scanSections]
      cases elf.sections[i]? with
      | none => rfl
      | some sec =>
          dsimp only
          split
          · split
            · split
              · rfl
              · rename_i entries _
                rw [scanEntries_inherit]
                cases scanEntries path sc entries with
                | ok sc => exact ih _ sc
                | err e => rfl
                | panic => rfl
            · rfl
          · exact ih elf sc

/-- The directories an object inherits are only added to its own. -/
theorem scan_inherit (fs : FileSystem) (path : OsString) (lpaths : Finset OsString) :
    fs.scan path lpaths = (fs.scan path ∅ >>= fun sc => .ok (Scanned.inherit lpaths sc)) := by
  have hstart : ({ lpaths, deps := [] } : Scanned) =
      Scanned.inherit lpaths { lpaths := ∅, deps := [] } := by simp [Scanned.inherit]
  rw [FileSystem.scan, FileSystem.scan]
  cases fs.openFile path with
  | error kind => rfl
  | ok opened =>
      cases opened with
      | directory => rfl
      | file bytes =>
          dsimp only
          cases Elf.fromReader bytes with
          | ok elf =>
              rw [hstart]
              exact scanSections_inherit _ _ _ _
          | err e => cases e <;> rfl
          | panic => rfl

end Scan

/-! ## Where a search ends -/

/-- The path a loop over directories ends at. -/
def settle (ldd : Ldd) (args js : List OsString) : Option OsString :=
  js.find? fun j => args.contains j || ldd.installable j

/-- The paths the search for the names of an object ends at, up to the first name
that is not found. -/
def targets (ldd : Ldd) (args dirs : List OsString) : List OsString → List OsString
  | [] => []
  | dep :: deps =>
      match ldd.settle args (dirs.map (ldd.candidate dep)) with
      | some j => j :: targets ldd args dirs deps
      | none =>
          match ldd.listed dep with
          | some vals => (vals.map ldd.fs.spelling).filter ldd.installable ++ targets ldd args dirs deps
          | none =>
              match ldd.settle args (ldd.defaultLibdir.map (ldd.candidate dep)) with
              | some j => j :: targets ldd args dirs deps
              | none => []

/-- The directories an object is searched along, and the names it needs. -/
def scanned (ldd : Ldd) (item : Item) : Scanned :=
  match ldd.fs.scan item.path item.lpaths with
  | .ok sc => sc
  | _ => { lpaths := ∅, deps := [] }

def itemTargets (ldd : Ldd) (args : List OsString) (iter : Iter) (item : Item) : List OsString :=
  if ldd.inDest item.path then []
  else ldd.targets args (iter.val (ldd.scanned item).lpaths) (ldd.scanned item).deps

/-- A path which a loop over directories meets in `visited` is an argument, or can
be installed. -/
def DecisiveHits (ldd : Ldd) (args : List OsString) (shared : Shared ldd.fs) (_ : Item) :
    Op ldd.fs → Prop
  | .insert .directory path =>
      path ∈ shared.visited → path ∈ args ∨ ldd.installable path = true
  | _ => True

instance (shared : Shared ldd.fs) (item : Item) (op : Op ldd.fs) :
    Decidable (ldd.DecisiveHits args shared item op) :=
  match op with
  | .insert .directory path =>
      inferInstanceAs (Decidable
        (path ∈ shared.visited → path ∈ args ∨ ldd.installable path = true))
  | .insert .cache _ => isTrue trivial
  | .canonGet _ => isTrue trivial
  | .canonPut _ _ => isTrue trivial
  | .enqueue _ => isTrue trivial

theorem settle_some {js : List OsString} {j : OsString} (h : ldd.settle args js = some j) :
    j ∈ args ∨ ldd.installable j = true := by
  have hj := List.find?_some h
  rcases Bool.or_eq_true_iff.mp hj with hj | hj
  · exact .inl (List.contains_iff_mem.mp hj)
  · exact .inr hj

theorem targets_decisive {dirs deps : List OsString} {j : OsString}
    (h : j ∈ ldd.targets args dirs deps) : j ∈ args ∨ ldd.installable j = true := by
  induction deps with
  | nil => cases h
  | cons dep deps ih =>
      rw [targets] at h
      split at h
      · rename_i i hi
        rcases List.mem_cons.mp h with rfl | h
        · exact settle_some hi
        · exact ih h
      · split at h
        · rcases List.mem_append.mp h with h | h
          · exact .inr (List.mem_filter.mp h).2
          · exact ih h
        · split at h
          · rename_i i hi
            rcases List.mem_cons.mp h with rfl | h
            · exact settle_some hi
            · exact ih h
          · cases h

/-- What one worker's answers are like in a run with decisive hits. -/
structure Decisive (ldd : Ldd) (args : List OsString) (es : Calls ldd.fs) : Prop where
  hit : ∀ j, tried .directory j false ∈ es → j ∈ args ∨ ldd.installable j = true
  fresh : ∀ stage j, tried stage j true ∈ es → j ∉ args

theorem Decisive.mono {es es' : Calls ldd.fs} (h : Decisive ldd args es) (hsub : es' ⊆ es) :
    Decisive ldd args es' :=
  ⟨fun j hj => h.hit j (hsub hj), fun stage j hj => h.fresh stage j (hsub hj)⟩

/-- The path is tried in the calls. -/
def Tried (es : Calls ldd.fs) (j : OsString) : Prop := ∃ stage new, tried stage j new ∈ es

theorem Tried.mono {es es' : Calls ldd.fs} {j : OsString} (h : Tried es j) (hsub : es ⊆ es') :
    Tried es' j := by
  obtain ⟨stage, new, ht⟩ := h
  exact ⟨stage, new, hsub ht⟩

section Search

variable {dirs js : List OsString} {lpaths : Finset OsString} {es : Calls ldd.fs}

/-- A loop over directories ends where `settle` says, and tries that path. -/
theorem Probed.settle {b : Bool} (h : Probed ldd lpaths js es b) (hd : Decisive ldd args es) :
    (ldd.settle args js).isSome = b ∧ (∀ j ∈ queuedPaths es, ldd.settle args js = some j) ∧
    ∀ j, ldd.settle args js = some j → Tried es j := by
  induction h with
  | exhausted => exact ⟨rfl, (fun j hj => nomatch hj), (fun j hj => nomatch hj)⟩
  | hit j js =>
      have hset : ldd.settle args (j :: js) = some j := by
        refine List.find?_cons_of_pos ?_
        rcases hd.hit j List.mem_cons_self with hj | hj <;> simp [hj]
      rw [hset]
      refine ⟨rfl, (fun j hj => nomatch hj), ?_⟩
      rintro i ⟨⟩
      exact ⟨_, _, List.mem_cons_self⟩
  | found j js hinst =>
      have hset : ldd.settle args (j :: js) = some j := List.find?_cons_of_pos (by simp [hinst])
      rw [hset]
      refine ⟨rfl, ?_, ?_⟩
      · intro i hi
        rw [queuedPaths_tried, queuedPaths_queued] at hi
        rcases List.mem_cons.mp hi with rfl | hi
        · rfl
        · cases hi
      · rintro i ⟨⟩
        exact ⟨_, _, List.mem_cons_self⟩
  | @missed j js es b hinst _ ih =>
      have hset : ldd.settle args (j :: js) = ldd.settle args js :=
        List.find?_cons_of_neg (by simp [hinst, hd.fresh _ j List.mem_cons_self])
      obtain ⟨hb, hqueued, htried⟩ := ih (hd.mono (List.subset_cons_self _ _))
      rw [hset]
      exact ⟨hb, hqueued, fun i hi => (htried i hi).mono (List.subset_cons_self _ _)⟩

/-- The loop over the cache queues installable paths only, and tries them all. -/
theorem ProbedListed.filter (h : ProbedListed ldd lpaths js es) :
    (∀ j ∈ queuedPaths es, j ∈ js.filter ldd.installable) ∧ ∀ j ∈ js, Tried es j := by
  refine ⟨?_, fun j hj => ?_⟩
  · induction h with
    | nil => exact fun j hj => nomatch hj
    | hit j _ ih =>
        intro i hi
        exact ((List.sublist_cons_self _ _).filter _).subset (ih i hi)
    | found j hinst _ ih =>
        intro i hi
        rw [List.filter_cons_of_pos hinst]
        rw [queuedPaths_tried, queuedPaths_queued] at hi
        rcases List.mem_cons.mp hi with rfl | hi
        · exact List.mem_cons_self
        · exact List.mem_cons_of_mem _ (ih i hi)
    | missed j hinst _ ih =>
        intro i hi
        rw [List.filter_cons_of_neg (by simp [hinst])]
        exact ih i hi
  · obtain ⟨new, ht⟩ := h.all j hj
    exact ⟨_, new, ht⟩

/-- What the search for one name adds to the targets. -/
theorem Searched.targets {dep : OsString} {b : Bool} (h : Searched ldd dirs lpaths dep es b)
    (hd : Decisive ldd args es) (deps : List OsString) :
    ∃ ts, ldd.targets args dirs (dep :: deps) = ts ++ (if b then ldd.targets args dirs deps else []) ∧
      (∀ j ∈ queuedPaths es, j ∈ ts) ∧ ∀ j ∈ ts, Tried es j := by
  cases h with
  | inDirs hdirs =>
      obtain ⟨hsome, hqueued, htried⟩ := hdirs.settle hd
      obtain ⟨j, hj⟩ := Option.isSome_iff_exists.mp hsome
      refine ⟨[j], by simp [Ldd.targets, hj], ?_, ?_⟩
      · intro i hi
        rw [Option.some.inj (hj.symm.trans (hqueued i hi))]
        exact List.mem_cons_self
      · intro i hi
        rw [List.mem_singleton.mp hi]
        exact htried j hj
  | @inCache es es' vals hdirs hsome hvals =>
      obtain ⟨hnone, hqueued, _⟩ := hdirs.settle (hd.mono (List.subset_append_left _ _))
      have hset := Option.not_isSome_iff_eq_none.mp (Bool.eq_false_iff.mp hnone)
      obtain ⟨hfilter, htried⟩ := hvals.filter
      refine ⟨(vals.map ldd.fs.spelling).filter ldd.installable,
        by simp [Ldd.targets, hset, hsome], ?_, ?_⟩
      · intro i hi
        rw [queuedPaths_append] at hi
        rcases List.mem_append.mp hi with hi | hi
        · rw [hset] at hqueued
          cases hqueued i hi
        · exact hfilter i hi
      · intro i hi
        exact (htried i (List.mem_filter.mp hi).1).mono (List.subset_append_right _ _)
  | @inDefault es es' b hdirs hlisted hdefault =>
      obtain ⟨hnone, hqueued, _⟩ := hdirs.settle (hd.mono (List.subset_append_left _ _))
      have hset := Option.not_isSome_iff_eq_none.mp (Bool.eq_false_iff.mp hnone)
      obtain ⟨hb, hqueued', htried⟩ := hdefault.settle (hd.mono (List.subset_append_right _ _))
      rw [hset] at hqueued
      refine ⟨(ldd.settle args (ldd.defaultLibdir.map (ldd.candidate dep))).toList, ?_, ?_, ?_⟩
      · cases hs : ldd.settle args (ldd.defaultLibdir.map (ldd.candidate dep)) with
        | none =>
            rw [hs] at hb
            simp [Ldd.targets, hset, hlisted, hs, ← hb]
        | some j =>
            rw [hs] at hb
            simp [Ldd.targets, hset, hlisted, hs, ← hb]
      · intro i hi
        rw [queuedPaths_append] at hi
        rcases List.mem_append.mp hi with hi | hi
        · cases hqueued i hi
        · exact Option.mem_toList.mpr (hqueued' i hi)
      · intro i hi
        exact (htried i (Option.mem_toList.mp hi)).mono (List.subset_append_right _ _)

/-- What a worker queues are targets, and it tries all of them. -/
theorem Resolved.targets {deps : List OsString} {r : Except RecurseError Unit}
    (h : Resolved ldd dirs lpaths deps es r) (hd : Decisive ldd args es) :
    (∀ j ∈ queuedPaths es, j ∈ ldd.targets args dirs deps) ∧
    ∀ j ∈ ldd.targets args dirs deps, Tried es j := by
  induction h with
  | nil => exact ⟨(fun j hj => nomatch hj), (fun j hj => nomatch hj)⟩
  | @found dep deps es es' r hsearch _ ih =>
      obtain ⟨ts, hts, hqueued, htried⟩ :=
        hsearch.targets (hd.mono (List.subset_append_left _ _)) deps
      obtain ⟨hqueued', htried'⟩ := ih (hd.mono (List.subset_append_right _ _))
      rw [hts, queuedPaths_append]
      constructor
      · intro j hj
        rcases List.mem_append.mp hj with hj | hj
        · exact List.mem_append_left _ (hqueued j hj)
        · exact List.mem_append_right _ (hqueued' j hj)
      · intro j hj
        rcases List.mem_append.mp hj with hj | hj
        · exact (htried j hj).mono (List.subset_append_left _ _)
        · exact (htried' j hj).mono (List.subset_append_right _ _)
  | missing dep deps hsearch =>
      obtain ⟨ts, hts, hqueued, htried⟩ := hsearch.targets hd deps
      simp only [Bool.false_eq_true, if_false, List.append_nil] at hts
      rw [hts]
      exact ⟨hqueued, htried⟩

theorem Worked.targets {iter : Iter} {item : Item} {out : Out}
    (h : Worked ldd iter item es out) (hd : Decisive ldd args es) :
    (∀ j ∈ queuedPaths es, j ∈ ldd.itemTargets args iter item) ∧
    ∀ j ∈ ldd.itemTargets args iter item, Tried es j := by
  cases h with
  | skipped hdest =>
      rw [itemTargets, if_pos hdest]
      exact ⟨(fun j hj => nomatch hj), (fun j hj => nomatch hj)⟩
  | failed hdest hscan =>
      rw [itemTargets, if_neg (by simp [hdest]), scanned, hscan]
      exact ⟨(fun j hj => nomatch hj), (fun j hj => nomatch hj)⟩
  | panicked hdest hscan =>
      rw [itemTargets, if_neg (by simp [hdest]), scanned, hscan]
      exact ⟨(fun j hj => nomatch hj), (fun j hj => nomatch hj)⟩
  | searched hdest hscan hres =>
      rw [itemTargets, if_neg (by simp [hdest]), scanned, hscan]
      exact hres.targets hd

end Search

/-! ## Runs -/

section Run

variable {files : List OsString} {schedule : List (Choice Iter)} {s : ldd.State}

theorem Finished.decisive (h : ldd.Finished files args schedule s)
    (hhits : Meets ldd.system (ldd.DecisiveHits args) (ldd.start args) schedule)
    {w : Worker (Op ldd.fs) (Res ldd.fs) Item Iter Out} (hw : w ∈ s.workers) :
    Decisive ldd args w.log where
  hit := by
    intro j hj
    obtain ⟨sh, hcond, hin⟩ := h.hit_cond hhits hw hj
    exact hcond hin
  fresh := by
    intro stage j hj harg
    have hacc := h.account (meets_true _ _)
    have hhist := List.mem_map_of_mem (f := Entry.event) (hacc.recorded hw hj)
    exact (replay_fresh hacc.replay).2.1 j (mem_fresh.mpr ⟨stage, hhist⟩)
      (List.mem_toFinset.mpr harg)

theorem Finished.worker_targets (h : ldd.Finished files args schedule s)
    (hhits : Meets ldd.system (ldd.DecisiveHits args) (ldd.start args) schedule)
    {w : Worker (Op ldd.fs) (Res ldd.fs) Item Iter Out} (hw : w ∈ s.workers) :
    (∀ j ∈ queuedPaths w.log, j ∈ ldd.itemTargets args w.hint w.item) ∧
    ∀ j ∈ ldd.itemTargets args w.hint w.item, Tried w.log j := by
  obtain ⟨out, _, hworked⟩ := h.worked hw
  have hsub := visible_subset w.log
  obtain ⟨hqueued, htried⟩ := hworked.targets ((h.decisive hhits hw).mono hsub)
  rw [queuedPaths_visible] at hqueued
  exact ⟨hqueued, fun j hj => (htried j hj).mono hsub⟩

/-- The targets of an object that was taken are taken. -/
theorem Finished.targets_taken (h : ldd.Finished files args schedule s)
    (hhits : Meets ldd.system (ldd.DecisiveHits args) (ldd.start args) schedule)
    {w : Worker (Op ldd.fs) (Res ldd.fs) Item Iter Out} (hw : w ∈ s.workers) {j : OsString}
    (hj : j ∈ ldd.itemTargets args w.hint w.item) : Taken s j := by
  obtain ⟨stage, new, ht⟩ := (h.worker_targets hhits hw).2 j hj
  have hdecisive : j ∈ args ∨ ldd.installable j = true := by
    rw [itemTargets] at hj
    split at hj
    · cases hj
    · exact targets_decisive hj
  rcases hdecisive with harg | hinst
  · exact h.args_taken harg
  · exact h.tried_taken hw ht hinst

/-- Where the targets of the objects of one run are among those of another, so are
the objects. -/
theorem Finished.taken_subset {ldd' : Ldd} {files' : List OsString}
    {schedule' : List (Choice Iter)} {s' : ldd'.State} (h : ldd.Finished files args schedule s)
    (h' : ldd'.Finished files' args schedule' s')
    (hhits : Meets ldd.system (ldd.DecisiveHits args) (ldd.start args) schedule)
    (hhits' : Meets ldd'.system (ldd'.DecisiveHits args) (ldd'.start args) schedule')
    (hsame : ∀ w' ∈ s'.workers, ∀ w ∈ s.workers, w.item.path = w'.item.path →
      ∀ j ∈ ldd'.itemTargets args w'.hint w'.item, j ∈ ldd.itemTargets args w.hint w.item) :
    ∀ path, Taken s' path → Taken s path := by
  refine h'.taken_induction (fun path hpath => h.args_taken hpath) ?_
  rintro w' hw' ⟨w, hw, hpath⟩ j hj
  exact h.targets_taken hhits hw (hsame w' hw' w hw hpath j ((h'.worker_targets hhits' hw').1 j hj))

/-- The names an object needs do not depend on what it inherits. -/
theorem scanned_deps {i₁ i₂ : Item} (h : i₁.path = i₂.path) :
    (ldd.scanned i₁).deps = (ldd.scanned i₂).deps := by
  rw [scanned, scanned, h, scan_inherit _ _ i₁.lpaths, scan_inherit _ _ i₂.lpaths]
  cases ldd.fs.scan i₂.path ∅ <;> rfl

/-- Every object that both runs take is searched for along the same directories. -/
def SameDirs (s₁ s₂ : ldd.State) : Prop :=
  ∀ w₁ ∈ s₁.workers, ∀ w₂ ∈ s₂.workers, w₁.item.path = w₂.item.path →
    (ldd.scanned w₁.item).lpaths = (ldd.scanned w₂.item).lpaths

/-- Two runs with decisive hits and with the same directories for each object
return the same paths, when each set is iterated over in one order. -/
theorem ldd_schedule_independent {iter : Iter} {plan₁ plan₂ : List (Choice Unit)}
    {s₁ s₂ : ldd.State} {res₁ res₂ : List OsString}
    (h₁ : ldd.Ran files args (plan₁.map (Choice.withHint iter)) s₁)
    (h₂ : ldd.Ran files args (plan₂.map (Choice.withHint iter)) s₂)
    (hres₁ : res₁.Perm (collected s₁)) (hres₂ : res₂.Perm (collected s₂))
    (hhits₁ : Meets ldd.system (ldd.DecisiveHits args) (ldd.start args)
      (plan₁.map (Choice.withHint iter)))
    (hhits₂ : Meets ldd.system (ldd.DecisiveHits args) (ldd.start args)
      (plan₂.map (Choice.withHint iter)))
    (hdirs : SameDirs s₁ s₂) : ∀ path, path ∈ res₁ ↔ path ∈ res₂ := by
  have hhint₁ := run_hints (fun w hw => nomatch hw) (fun _ _ => Choice.hint_of_mem) h₁.run
  have hhint₂ := run_hints (fun w hw => nomatch hw) (fun _ _ => Choice.hint_of_mem) h₂.run
  have htargets (w₁) (hw₁ : w₁ ∈ s₁.workers) (w₂) (hw₂ : w₂ ∈ s₂.workers)
      (hpath : w₁.item.path = w₂.item.path) :
      ldd.itemTargets args w₁.hint w₁.item = ldd.itemTargets args w₂.hint w₂.item := by
    rw [hhint₁ w₁ hw₁, hhint₂ w₂ hw₂, itemTargets, itemTargets, hdirs w₁ hw₁ w₂ hw₂ hpath,
      scanned_deps hpath, hpath]
  intro path
  rw [hres₁.mem_iff, hres₂.mem_iff, h₁.mem_collected, h₂.mem_collected]
  refine and_congr_left fun _ => ⟨?_, ?_⟩
  · refine h₂.taken_subset h₁.toFinished hhits₂ hhits₁ (fun w₁ hw₁ w₂ hw₂ hpath j hj => ?_) path
    rwa [htargets w₁ hw₁ w₂ hw₂ hpath.symm] at hj
  · refine h₁.taken_subset h₂.toFinished hhits₁ hhits₂ (fun w₂ hw₂ w₁ hw₁ hpath j hj => ?_) path
    rwa [← htargets w₁ hw₁ w₂ hw₂ hpath] at hj

end Run

end Ldd

namespace Sample

/-- Two objects with a library in common, which needs `y`.  Each of the objects has
a directory of its own with a `y` in it. -/
def inheriting : Ldd where
  fs := FileSystem.plain
    [[], [ascii "lib64", ascii "dyninst"], [ascii "ra"], [ascii "rb"]]
    [(ascii "/a", object [(1, 1), (15, 3), (0, 0)] (0 :: (ascii "x" ++ 0 :: ascii "/ra"))),
     (ascii "/b", object [(1, 1), (15, 3), (0, 0)] (0 :: (ascii "x" ++ 0 :: ascii "/rb"))),
     (ascii "/lib64/dyninst/x", needing "y"),
     (ascii "/ra/y", object [(0, 0)] []), (ascii "/rb/y", object [(0, 0)] [])]
    (by decide) (by decide)
  ldSoCache := none
  defaultLibdir := standardLibdirs
  destPath := ascii "/dest"

noncomputable def listing : Ldd.Iter :=
  Ldd.Iter.ofLists [[], [ascii "/ra"], [ascii "/rb"]] (by decide)

/-- The directories of the object that comes first are those of the library. -/
theorem inheriting_differs :
    ∃ (plan₁ plan₂ : List (Choice Unit)) (s₁ s₂ : inheriting.State),
      inheriting.Ran args args (plan₁.map (Choice.withHint listing)) s₁ ∧
      inheriting.Ran args args (plan₂.map (Choice.withHint listing)) s₂ ∧
      ascii "/ra/y" ∈ Ldd.collected s₁ ∧ ascii "/ra/y" ∉ Ldd.collected s₂ := by
  have hargs : args.mapM inheriting.fs.canonicalizeDir = some args := by decide +kernel
  let plan (first : Nat) : List (Choice Unit) :=
    [.take first (), .run 0, .run 0, .run 0, .run 0, .run 0, .run 0, .run 0,
      .take 1 (), .run 1, .run 1, .run 1,
      .take 0 (), .run 2, .run 2, .run 2, .run 2, .run 2, .take 0 ()]
  obtain ⟨s₁, hran₁, hres₁⟩ := Ldd.Ran.exists_of_ended
    ((plan 0).map (Choice.withHint listing))
    (fun s : inheriting.State => decide (ascii "/ra/y" ∈ Ldd.collected s)) hargs (by decide +kernel)
  obtain ⟨s₂, hran₂, hres₂⟩ := Ldd.Ran.exists_of_ended
    ((plan 1).map (Choice.withHint listing))
    (fun s : inheriting.State => decide (ascii "/ra/y" ∉ Ldd.collected s)) hargs (by decide +kernel)
  exact ⟨plan 0, plan 1, s₁, s₂, hran₁, hran₂, of_decide_eq_true hres₁, of_decide_eq_true hres₂⟩

/-- One object after the other, and the two in turn with the second one first. -/
theorem somewhere_schedule_independent :
    ∃ (plan₁ plan₂ : List (Choice Unit)) (s₁ s₂ : somewhere.State),
      somewhere.Ran args args (plan₁.map (Choice.withHint iter)) s₁ ∧
      somewhere.Ran args args (plan₂.map (Choice.withHint iter)) s₂ ∧
      ∀ path, path ∈ Ldd.collected s₁ ↔ path ∈ Ldd.collected s₂ := by
  have hargs : args.mapM somewhere.fs.canonicalizeDir = some args := by decide +kernel
  let plan₁ : List (Choice Unit) :=
    [.take 0 (), .run 0, .run 0, .run 0, .run 0, .take 0 (), .run 1, .run 1, .take 0 ()]
  let plan₂ : List (Choice Unit) :=
    [.take 1 (), .take 0 (), .run 0, .run 1, .run 1, .run 1, .run 0, .run 1, .run 0, .take 0 ()]
  obtain ⟨s₁, hran₁, hdirs₁⟩ := Ldd.Ran.exists_of_ended
    (plan₁.map (Choice.withHint iter))
    (fun s : somewhere.State => s.workers.all fun w => (somewhere.scanned w.item).lpaths = ∅)
    hargs (by decide +kernel)
  obtain ⟨s₂, hran₂, hdirs₂⟩ := Ldd.Ran.exists_of_ended
    (plan₂.map (Choice.withHint iter))
    (fun s : somewhere.State => s.workers.all fun w => (somewhere.scanned w.item).lpaths = ∅)
    hargs (by decide +kernel)
  refine ⟨plan₁, plan₂, s₁, s₂, hran₁, hran₂, ?_⟩
  refine Ldd.ldd_schedule_independent hran₁ hran₂ (List.Perm.refl _) (List.Perm.refl _)
    (by decide +kernel) (by decide +kernel) ?_
  intro w₁ hw₁ w₂ hw₂ _
  rw [of_decide_eq_true (List.all_eq_true.mp hdirs₁ w₁ hw₁),
    of_decide_eq_true (List.all_eq_true.mp hdirs₂ w₂ hw₂)]

end Sample
end Elfkit
end DracutInstall

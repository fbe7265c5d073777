/-
One call of `recurse` with nobody else at the queue.

The search for a name is a search along lists of candidates that share the set
`visited`: along the directories, then the paths the cache lists or the default
directories.  `resolveFrom` is the loop over the names, and `recurse_alone` says
that it is what a worker does that nobody interrupts, whatever is in the cache of
canonical directories.
-/
import DracutInstall.Lib.Probe
import DracutInstall.Elfkit.LddSearch

namespace DracutInstall
namespace Elfkit

open ByteCodec Rust UnixPath WorkList Probe

namespace Ldd

variable (ldd : Ldd)

/-! ## The search as a function of `visited` -/

/-- The candidates of a name in some directories. -/
def inDirs (dirs : List OsString) (dep : OsString) : List OsString :=
  dirs.map (ldd.candidate dep)

/-- The body of `'outer`. -/
def searchFrom (dirs : List OsString) (seen : Finset OsString) (dep : OsString) :
    Found OsString :=
  let first := probe ldd.installable seen (ldd.inDirs dirs dep)
  if first.found then first
  else
    match ldd.listed dep with
    | some vals => probeAll ldd.installable first.seen (vals.map ldd.fs.spelling)
    | none => probe ldd.installable first.seen (ldd.inDirs ldd.defaultLibdir dep)

/-- How the loop over the names ends: with a name that is missing, or with none. -/
structure Resolution where
  missing : Option OsString
  taken : List OsString
  seen : Finset OsString

def resolveFrom (dirs : List OsString) : Finset OsString → List OsString → Resolution
  | seen, [] => ⟨none, [], seen⟩
  | seen, dep :: deps =>
      let first := ldd.searchFrom dirs seen dep
      if first.found then
        let rest := resolveFrom dirs first.seen deps
        { rest with taken := first.taken ++ rest.taken }
      else ⟨some dep, [], first.seen⟩

/-- What `recurse` returns for a missing name. -/
def Resolution.result (r : Resolution) (lpaths : Finset OsString) : Except RecurseError Unit :=
  match r.missing with
  | some dep => .error (.unableToFindDependency dep lpaths)
  | none => .ok ()

/-! ## Calls that nobody interrupts -/

variable {ldd} {α β : Type}

/-- From a set `visited`, a call returns a value, enqueues some items and leaves
another set. -/
def Ends (ldd : Ldd) (p : Call ldd.fs α) (seen : Finset OsString) (a : α) (items : List Item)
    (seen' : Finset OsString) : Prop :=
  ∀ shared : Shared ldd.fs, shared.visited = seen →
    (p.alone ldd.system shared).result = a ∧ (p.alone ldd.system shared).enqueued = items ∧
      (p.alone ldd.system shared).shared.visited = seen'

section Ends

variable {seen seen' seen'' : Finset OsString} {items items' : List Item}

theorem Ends.pure (a : α) : Ends ldd (pure a) seen a [] seen :=
  fun _ h => ⟨rfl, rfl, h⟩

theorem Ends.bind {p : Call ldd.fs α} {f : α → Call ldd.fs β} {a : α} {b : β}
    (hp : Ends ldd p seen a items seen') (hf : Ends ldd (f a) seen' b items' seen'') :
    Ends ldd (p >>= f) seen b (items ++ items') seen'' := by
  intro shared h
  obtain ⟨ha, hitems, hseen⟩ := hp shared h
  have hrest := hf _ hseen
  rw [← ha] at hrest
  obtain ⟨hb, hitems', hseen'⟩ := hrest
  rw [alone_bind]
  exact ⟨hb, by rw [← hitems, ← hitems'], hseen'⟩

/-- A call that enqueues nothing, before another. -/
theorem Ends.after {p : Call ldd.fs α} {f : α → Call ldd.fs β} {a : α} {b : β}
    (hp : Ends ldd p seen a [] seen') (hf : Ends ldd (f a) seen' b items seen'') :
    Ends ldd (p >>= f) seen b items seen'' := hp.bind hf

theorem ends_canonGet (path : OsString) (shared : Shared ldd.fs) :
    ((canonGet path).alone ldd.system shared) = ⟨shared.canonCache.lookup path, [], shared⟩ :=
  alone_op ldd.system (Op.canonGet path) shared

theorem ends_canonPut (path : OsString) (val : CanonOf ldd.fs path) :
    Ends ldd (canonPut path val) seen () [] seen := by
  intro shared h
  rw [canonPut, alone_op]
  exact ⟨rfl, rfl, h⟩

theorem ends_visit_hit (stage : Stage) {path : OsString} (h : path ∈ seen) :
    Ends ldd (visit stage path) seen false [] seen := by
  intro shared hseen
  subst hseen
  rw [visit, alone_op]
  exact ⟨decide_eq_false (fun hnew => hnew h), rfl, Finset.insert_eq_of_mem h⟩

theorem ends_visit_new (stage : Stage) {path : OsString} (h : path ∉ seen) :
    Ends ldd (visit stage path) seen true [] (insert path seen) := by
  intro shared hseen
  subst hseen
  rw [visit, alone_op]
  exact ⟨decide_eq_true h, rfl, rfl⟩

theorem ends_enqueue (item : Item) :
    Ends ldd (enqueue item) seen () [item] seen := by
  intro shared h
  rw [enqueue, alone_op]
  exact ⟨rfl, rfl, h⟩

theorem ends_canonicalize (path : OsString) :
    Ends ldd (canonicalize path) seen (ldd.fs.canonicalize path) [] seen := by
  intro shared h
  rw [canonicalize, alone_bind, ends_canonGet]
  dsimp only
  cases shared.canonCache.lookup path with
  | some val => exact ⟨val.property.symm, rfl, h⟩
  | none =>
      dsimp only
      split
      · rename_i hnone
        exact ⟨hnone.symm, rfl, h⟩
      · rename_i val hsome
        have hput := (ends_canonPut path ⟨val, hsome⟩).after
          (f := fun _ => Pure.pure (some val)) (.pure (some val)) shared h
        exact ⟨hput.1.trans hsome.symm, hput.2⟩

theorem ends_canonicalizeDir (path : OsString) :
    Ends ldd (canonicalizeDir path) seen (ldd.fs.canonicalizeDir path) [] seen := by
  rw [canonicalizeDir, FileSystem.canonicalizeDir]
  cases fileName path with
  | none => exact .pure none
  | some name =>
      cases parent path with
      | none => exact .pure none
      | some dirname =>
          refine (ends_canonicalize dirname).after ?_
          show Ends ldd _ seen ((ldd.fs.canonicalize dirname).bind fun canon =>
            some (push canon name)) [] seen
          cases ldd.fs.canonicalize dirname with
          | none => exact .pure none
          | some canon => exact .pure _

theorem ends_spell (path : OsString) :
    Ends ldd (spell path) seen (ldd.fs.spelling path) [] seen :=
  (ends_canonicalizeDir path).after (.pure _)

end Ends

/-! ## The search is the call -/

/-- The items for some paths. -/
def itemsOf (lpaths : Finset OsString) (paths : List OsString) : List Item :=
  paths.map fun path => ⟨path, lpaths⟩

/-- A call that ends as a search does. -/
def Finds (p : Call ldd.fs Bool) (lpaths seen : Finset OsString) (r : Found OsString) : Prop :=
  Ends ldd p seen r.found (itemsOf lpaths r.taken) r.seen

section Search

variable (ldd) (lpaths seen : Finset OsString)

section Stages

variable {ldd} {seen} {dirs : List OsString} {dep : OsString}

theorem searchFrom_of_found
    (h : (probe ldd.installable seen (ldd.inDirs dirs dep)).found = true) :
    ldd.searchFrom dirs seen dep = probe ldd.installable seen (ldd.inDirs dirs dep) := by
  rw [searchFrom]
  exact if_pos h

theorem searchFrom_of_listed {vals : List OsString}
    (h : (probe ldd.installable seen (ldd.inDirs dirs dep)).found = false)
    (hlisted : ldd.listed dep = some vals) :
    ldd.searchFrom dirs seen dep = probeAll ldd.installable
      (probe ldd.installable seen (ldd.inDirs dirs dep)).seen (vals.map ldd.fs.spelling) := by
  rw [searchFrom, hlisted]
  exact if_neg (Bool.eq_false_iff.mp h)

theorem searchFrom_of_unlisted
    (h : (probe ldd.installable seen (ldd.inDirs dirs dep)).found = false)
    (hlisted : ldd.listed dep = none) :
    ldd.searchFrom dirs seen dep = probe ldd.installable
      (probe ldd.installable seen (ldd.inDirs dirs dep)).seen
      (ldd.inDirs ldd.defaultLibdir dep) := by
  rw [searchFrom, hlisted]
  exact if_neg (Bool.eq_false_iff.mp h)

theorem searchFrom_taken_of_missed
    (h : (ldd.searchFrom dirs seen dep).found = false) :
    (ldd.searchFrom dirs seen dep).taken = [] := by
  cases hfound : (probe ldd.installable seen (ldd.inDirs dirs dep)).found with
  | true =>
      rw [searchFrom_of_found hfound, hfound] at h
      cases h
  | false =>
      cases hlisted : ldd.listed dep with
      | some vals =>
          rw [searchFrom_of_listed hfound hlisted, probeAll_found] at h
          cases h
      | none =>
          rw [searchFrom_of_unlisted hfound hlisted] at h ⊢
          exact probe_taken_of_missed h

end Stages

theorem finds_probeDirs (dep : OsString) (dirs : List OsString) :
    Finds (ldd.probeDirs lpaths dep dirs) lpaths seen
      (probe ldd.installable seen (ldd.inDirs dirs dep)) := by
  induction dirs generalizing seen with
  | nil => exact Ends.pure false
  | cons dir dirs ih =>
      rw [inDirs, List.map_cons, probe, probeDirs]
      refine (ends_spell _).after ?_
      by_cases hseen : ldd.candidate dep dir ∈ seen
      · rw [if_pos hseen]
        exact (ends_visit_hit _ hseen).after (.pure true)
      · rw [if_neg hseen]
        refine (ends_visit_new _ hseen).after ?_
        rw [if_pos rfl]
        by_cases hinst : ldd.installable (ldd.candidate dep dir) = true
        · rw [if_pos hinst]
          show Ends ldd (if ldd.installable (ldd.candidate dep dir) = true then _ else _) _ _ _ _
          rw [if_pos hinst]
          exact (ends_enqueue _).bind (.pure true)
        · rw [if_neg hinst]
          show Ends ldd (if ldd.installable (ldd.candidate dep dir) = true then _ else _) _ _ _ _
          rw [if_neg hinst]
          exact ih _

theorem ends_probeListed (vals : List OsString) :
    Ends ldd (ldd.probeListed lpaths vals) seen ()
      (itemsOf lpaths (probeAll ldd.installable seen (vals.map ldd.fs.spelling)).taken)
      (probeAll ldd.installable seen (vals.map ldd.fs.spelling)).seen := by
  induction vals generalizing seen with
  | nil => exact Ends.pure ()
  | cons f vals ih =>
      rw [List.map_cons, probeAll, probeListed]
      refine (ends_spell _).after ?_
      by_cases hseen : ldd.fs.spelling f ∈ seen
      · rw [if_pos hseen]
        exact (ends_visit_hit _ hseen).after (ih _)
      · rw [if_neg hseen]
        refine (ends_visit_new _ hseen).after ?_
        rw [if_pos rfl]
        dsimp only
        by_cases hinst : ldd.installable (ldd.fs.spelling f) = true
        · rw [if_pos hinst, if_pos hinst]
          exact (ends_enqueue _).bind (ih _)
        · rw [if_neg hinst, if_neg hinst]
          exact ih _

theorem finds_search (dirs : List OsString) (dep : OsString) :
    Finds (ldd.search dirs lpaths dep) lpaths seen (ldd.searchFrom dirs seen dep) := by
  rw [search]
  have hdirs := finds_probeDirs ldd lpaths seen dep dirs
  rw [Finds] at hdirs
  cases hfound : (probe ldd.installable seen (ldd.inDirs dirs dep)).found with
  | true =>
      rw [hfound] at hdirs
      rw [searchFrom_of_found hfound, Finds, hfound, ← List.append_nil (itemsOf _ _)]
      exact hdirs.bind (.pure true)
  | false =>
      rw [hfound, probe_taken_of_missed hfound] at hdirs
      refine hdirs.after ?_
      rw [if_neg Bool.false_ne_true]
      cases hlisted : ldd.listed dep with
      | some vals =>
          rw [searchFrom_of_listed hfound hlisted, probeAll_found,
            ← List.append_nil (itemsOf _ _)]
          exact (ends_probeListed ldd lpaths _ vals).bind (.pure true)
      | none =>
          rw [searchFrom_of_unlisted hfound hlisted]
          exact finds_probeDirs ldd lpaths _ dep ldd.defaultLibdir

theorem ends_resolve (dirs deps : List OsString) :
    Ends ldd (ldd.resolve dirs lpaths deps) seen ((ldd.resolveFrom dirs seen deps).result lpaths)
      (itemsOf lpaths (ldd.resolveFrom dirs seen deps).taken)
      (ldd.resolveFrom dirs seen deps).seen := by
  induction deps generalizing seen with
  | nil => exact Ends.pure (Except.ok ())
  | cons dep deps ih =>
      rw [resolve, resolveFrom]
      have hsearch := finds_search ldd lpaths seen dirs dep
      rw [Finds] at hsearch
      cases hfound : (ldd.searchFrom dirs seen dep).found with
      | true =>
          rw [hfound] at hsearch
          rw [if_pos rfl]
          dsimp only
          rw [itemsOf, List.map_append]
          exact hsearch.bind (ih _)
      | false =>
          rw [hfound, searchFrom_taken_of_missed hfound] at hsearch
          exact hsearch.after (.pure _)

end Search

/-! ## What a search looks at and what it takes -/

/-- The paths a search for a name may look at. -/
def lookedAt (ldd : Ldd) (dirs : List OsString) (dep : OsString) : List OsString :=
  ldd.inDirs dirs dep ++
    match ldd.listed dep with
    | some vals => vals.map ldd.fs.spelling
    | none => ldd.inDirs ldd.defaultLibdir dep

/-- The first path along some candidates that can be installed, none of them up to
it being in `seen` or met twice. -/
def FirstOf (ldd : Ldd) (seen : Finset OsString) (js : List OsString) (j : OsString) : Prop :=
  ∃ before after, js = before ++ j :: after ∧ Fresh seen (before ++ [j]) ∧
    (∀ i ∈ before, ldd.installable i = false) ∧ ldd.installable j = true

/-- No candidate is in `seen` or met twice, and none can be installed. -/
def AllMissed (ldd : Ldd) (seen : Finset OsString) (js : List OsString) : Prop :=
  Fresh seen js ∧ ∀ j ∈ js, ldd.installable j = false

/-- The paths a search offers to install: the first in the directories, else those
the cache lists, else the first in the default directories. -/
inductive Offers (ldd : Ldd) (dirs : List OsString) (seen : Finset OsString) (dep j : OsString) :
    Prop
  | inDirs : FirstOf ldd seen (ldd.inDirs dirs dep) j → Offers ldd dirs seen dep j
  | inCache (vals : List OsString) : AllMissed ldd seen (ldd.inDirs dirs dep) →
      ldd.listed dep = some vals → j ∈ vals.map ldd.fs.spelling → ldd.installable j = true →
      j ∉ seen → Offers ldd dirs seen dep j
  | inDefault : AllMissed ldd seen (ldd.inDirs dirs dep) → ldd.listed dep = none →
      FirstOf ldd (seen ∪ (ldd.inDirs dirs dep).toFinset) (ldd.inDirs ldd.defaultLibdir dep) j →
      Offers ldd dirs seen dep j

section Taken

variable {dirs : List OsString} {seen : Finset OsString} {dep j : OsString}

theorem mem_searchFrom_taken :
    j ∈ (ldd.searchFrom dirs seen dep).taken ↔ Offers ldd dirs seen dep j := by
  cases hfound : (probe ldd.installable seen (ldd.inDirs dirs dep)).found with
  | true =>
      rw [searchFrom_of_found hfound, mem_probe_taken]
      have hnot : ¬ AllMissed ldd seen (ldd.inDirs dirs dep) := by
        intro h
        rw [probe_found_eq_false.mpr h] at hfound
        cases hfound
      constructor
      · exact .inDirs
      · intro h
        cases h with
        | inDirs h => exact h
        | inCache vals h _ _ _ _ => exact absurd h hnot
        | inDefault h _ _ => exact absurd h hnot
  | false =>
      have hall : AllMissed ldd seen (ldd.inDirs dirs dep) := probe_found_eq_false.mp hfound
      have hnone : ¬ FirstOf ldd seen (ldd.inDirs dirs dep) j := by
        intro hex
        obtain ⟨before, after, heq, _, _, hj⟩ := hex
        rw [hall.2 j (heq ▸ List.mem_append_right _ List.mem_cons_self)] at hj
        cases hj
      have hseen := congrArg Found.seen (probe_of_missed hall.1 hall.2)
      cases hlisted : ldd.listed dep with
      | some vals =>
          rw [searchFrom_of_listed hfound hlisted, mem_probeAll_taken, hseen]
          constructor
          · intro hex
            obtain ⟨hj, hinst, hnew⟩ := hex
            exact .inCache vals hall hlisted hj hinst fun h => hnew (Finset.mem_union_left _ h)
          · intro h
            cases h with
            | inDirs h => exact absurd h hnone
            | inCache vals' _ hvals hj hinst hnew =>
                obtain rfl := Option.some.inj (hlisted.symm.trans hvals)
                refine ⟨hj, hinst, fun hmem => ?_⟩
                rcases Finset.mem_union.mp hmem with hmem | hmem
                · exact hnew hmem
                · rw [hall.2 j (List.mem_toFinset.mp hmem)] at hinst
                  cases hinst
            | inDefault _ hvals _ =>
                rw [hlisted] at hvals
                cases hvals
      | none =>
          rw [searchFrom_of_unlisted hfound hlisted, mem_probe_taken, hseen]
          constructor
          · exact .inDefault hall hlisted
          · intro h
            cases h with
            | inDirs h => exact absurd h hnone
            | inCache vals _ hvals _ _ _ =>
                rw [hlisted] at hvals
                cases hvals
            | inDefault _ _ h => exact h

theorem Offers.installable (h : Offers ldd dirs seen dep j) : ldd.installable j = true := by
  cases h with
  | inDirs h =>
      obtain ⟨_, _, _, _, _, hj⟩ := h
      exact hj
  | inCache _ _ _ _ hj _ => exact hj
  | inDefault _ _ h =>
      obtain ⟨_, _, _, _, _, hj⟩ := h
      exact hj

theorem Offers.lookedAt (h : Offers ldd dirs seen dep j) : j ∈ ldd.lookedAt dirs dep := by
  rw [Ldd.lookedAt]
  cases h with
  | inDirs h =>
      obtain ⟨before, after, heq, _⟩ := h
      rw [heq]
      exact List.mem_append_left _ (List.mem_append_right _ List.mem_cons_self)
  | inCache vals _ hlisted hj _ _ =>
      rw [hlisted]
      exact List.mem_append_right _ hj
  | inDefault _ hlisted h =>
      obtain ⟨before, after, heq, _⟩ := h
      rw [hlisted]
      dsimp only
      rw [heq]
      exact List.mem_append_right _ (List.mem_append_right _ List.mem_cons_self)

theorem Offers.new (h : Offers ldd dirs seen dep j) : j ∉ seen := by
  cases h with
  | inDirs h =>
      obtain ⟨before, after, _, hfresh, _⟩ := h
      exact hfresh.new j (List.mem_append_right _ List.mem_cons_self)
  | inCache _ _ _ _ _ hj => exact hj
  | inDefault _ _ h =>
      obtain ⟨before, after, _, hfresh, _⟩ := h
      intro hmem
      exact hfresh.new j (List.mem_append_right _ List.mem_cons_self)
        (Finset.mem_union_left _ hmem)

theorem searchFrom_seen_mono : seen ⊆ (ldd.searchFrom dirs seen dep).seen := by
  cases hfound : (probe ldd.installable seen (ldd.inDirs dirs dep)).found with
  | true =>
      rw [searchFrom_of_found hfound]
      exact probe_seen_mono
  | false =>
      cases hlisted : ldd.listed dep with
      | some vals =>
          rw [searchFrom_of_listed hfound hlisted, probeAll_seen]
          exact probe_seen_mono.trans Finset.subset_union_left
      | none =>
          rw [searchFrom_of_unlisted hfound hlisted]
          exact probe_seen_mono.trans probe_seen_mono

theorem searchFrom_seen_sub :
    (ldd.searchFrom dirs seen dep).seen ⊆ seen ∪ (ldd.lookedAt dirs dep).toFinset := by
  have hdirs : (probe ldd.installable seen (ldd.inDirs dirs dep)).seen ⊆
      seen ∪ (ldd.inDirs dirs dep).toFinset := probe_seen_sub
  rw [lookedAt, List.toFinset_append, ← Finset.union_assoc]
  cases hfound : (probe ldd.installable seen (ldd.inDirs dirs dep)).found with
  | true =>
      rw [searchFrom_of_found hfound]
      exact hdirs.trans Finset.subset_union_left
  | false =>
      cases hlisted : ldd.listed dep with
      | some vals =>
          rw [searchFrom_of_listed hfound hlisted, probeAll_seen]
          exact Finset.union_subset_union_left hdirs
      | none =>
          rw [searchFrom_of_unlisted hfound hlisted]
          exact probe_seen_sub.trans (Finset.union_subset_union_left hdirs)

theorem searchFrom_taken_seen (h : j ∈ (ldd.searchFrom dirs seen dep).taken) :
    j ∈ (ldd.searchFrom dirs seen dep).seen := by
  cases hfound : (probe ldd.installable seen (ldd.inDirs dirs dep)).found with
  | true =>
      rw [searchFrom_of_found hfound] at h ⊢
      exact probe_taken_seen h
  | false =>
      cases hlisted : ldd.listed dep with
      | some vals =>
          rw [searchFrom_of_listed hfound hlisted] at h ⊢
          rw [probeAll_seen]
          exact Finset.mem_union_right _ (List.mem_toFinset.mpr (mem_probeAll_taken.mp h).1)
      | none =>
          rw [searchFrom_of_unlisted hfound hlisted] at h ⊢
          exact probe_taken_seen h

/-- A search does not depend on what has been tried of other paths. -/
theorem searchFrom_union (seen : Finset OsString) {extra : Finset OsString}
    (h : ∀ j ∈ ldd.lookedAt dirs dep, j ∉ extra) :
    ldd.searchFrom dirs (seen ∪ extra) dep =
      { ldd.searchFrom dirs seen dep with
        seen := (ldd.searchFrom dirs seen dep).seen ∪ extra } := by
  rw [lookedAt, List.forall_mem_append] at h
  have hdirs : probe ldd.installable (seen ∪ extra) (ldd.inDirs dirs dep) =
      { probe ldd.installable seen (ldd.inDirs dirs dep) with
        seen := (probe ldd.installable seen (ldd.inDirs dirs dep)).seen ∪ extra } :=
    probe_union h.1
  have hfound' := congrArg Found.found hdirs
  have hseen := congrArg Found.seen hdirs
  dsimp only at hfound' hseen
  cases hfound : (probe ldd.installable seen (ldd.inDirs dirs dep)).found with
  | true =>
      rw [searchFrom_of_found hfound, searchFrom_of_found (hfound'.trans hfound), hdirs]
  | false =>
      cases hlisted : ldd.listed dep with
      | some vals =>
          rw [hlisted] at h
          rw [searchFrom_of_listed hfound hlisted,
            searchFrom_of_listed (hfound'.trans hfound) hlisted, hseen, probeAll_union h.2]
      | none =>
          rw [hlisted] at h
          rw [searchFrom_of_unlisted hfound hlisted,
            searchFrom_of_unlisted (hfound'.trans hfound) hlisted, hseen, probe_union h.2]

/-- From two sets that agree on what a search may look at, it ends the same. -/
theorem searchFrom_congr {seen' : Finset OsString}
    (h : ∀ j ∈ ldd.lookedAt dirs dep, j ∈ seen ↔ j ∈ seen') :
    (ldd.searchFrom dirs seen dep).found = (ldd.searchFrom dirs seen' dep).found ∧
    (ldd.searchFrom dirs seen dep).taken = (ldd.searchFrom dirs seen' dep).taken ∧
    (ldd.searchFrom dirs seen dep).seen ∪ seen' = (ldd.searchFrom dirs seen' dep).seen ∪ seen := by
  have hextra' : ∀ j ∈ ldd.lookedAt dirs dep, j ∉ seen' \ seen := fun j hj hmem =>
    (Finset.mem_sdiff.mp hmem).2 ((h j hj).mpr (Finset.mem_sdiff.mp hmem).1)
  have hextra : ∀ j ∈ ldd.lookedAt dirs dep, j ∉ seen \ seen' := fun j hj hmem =>
    (Finset.mem_sdiff.mp hmem).2 ((h j hj).mp (Finset.mem_sdiff.mp hmem).1)
  have hleft := searchFrom_union seen hextra'
  have hright := searchFrom_union seen' hextra
  rw [Finset.union_sdiff_self_eq_union] at hleft hright
  rw [Finset.union_comm seen' seen, hleft] at hright
  have hfound := congrArg Found.found hright
  have htaken := congrArg Found.taken hright
  have hseen := congrArg Found.seen hright
  dsimp only at hfound htaken hseen
  refine ⟨hfound, htaken, ?_⟩
  have hin : seen ⊆ (ldd.searchFrom dirs seen dep).seen := searchFrom_seen_mono
  have hin' : seen' ⊆ (ldd.searchFrom dirs seen' dep).seen := searchFrom_seen_mono
  rw [← Finset.union_sdiff_of_subset hin, ← Finset.union_sdiff_of_subset hin'] at hseen ⊢
  ext j
  have hj := Finset.ext_iff.mp hseen j
  simp only [Finset.mem_union, Finset.mem_sdiff] at hj ⊢
  tauto

end Taken

/-! ## The loop over the names -/

section Loop

variable {dirs deps : List OsString} {seen : Finset OsString} {dep : OsString}

/-- A name is missing when the cache does not list it and each candidate is new and
cannot be installed. -/
theorem searchFrom_missed :
    (ldd.searchFrom dirs seen dep).found = false ↔ ldd.listed dep = none ∧
      Fresh seen (ldd.inDirs (dirs ++ ldd.defaultLibdir) dep) ∧
      ∀ j ∈ ldd.inDirs (dirs ++ ldd.defaultLibdir) dep, ldd.installable j = false := by
  rw [inDirs, List.map_append, ← inDirs, ← inDirs, fresh_append, List.forall_mem_append]
  cases hfound : (probe ldd.installable seen (ldd.inDirs dirs dep)).found with
  | true =>
      rw [searchFrom_of_found hfound, hfound]
      refine iff_of_false (fun h => by cases h) ?_
      intro h
      rw [probe_found_eq_false.mpr ⟨h.2.1.1, h.2.2.1⟩] at hfound
      cases hfound
  | false =>
      obtain ⟨hfresh, hok⟩ := probe_found_eq_false.mp hfound
      cases hlisted : ldd.listed dep with
      | some vals =>
          rw [searchFrom_of_listed hfound hlisted, probeAll_found]
          exact iff_of_false (fun h => by cases h) (fun h => by cases h.1)
      | none =>
          rw [searchFrom_of_unlisted hfound hlisted, probe_found_eq_false,
            probe_of_missed hfresh hok]
          constructor
          · intro h
            exact ⟨rfl, ⟨hfresh, h.1⟩, hok, h.2⟩
          · intro h
            exact ⟨h.2.1.2, h.2.2.2⟩

theorem resolveFrom_append (deps' : List OsString)
    (h : (ldd.resolveFrom dirs seen deps).missing = none) :
    ldd.resolveFrom dirs seen (deps ++ deps') =
      let rest := ldd.resolveFrom dirs (ldd.resolveFrom dirs seen deps).seen deps'
      { rest with taken := (ldd.resolveFrom dirs seen deps).taken ++ rest.taken } := by
  induction deps generalizing seen with
  | nil => rfl
  | cons dep deps ih =>
      rw [resolveFrom] at h
      rw [List.cons_append, resolveFrom, resolveFrom]
      cases hfound : (ldd.searchFrom dirs seen dep).found with
      | true =>
          dsimp only at h
          rw [if_pos hfound] at h
          simp only [if_pos, ih h, List.append_assoc]
      | false =>
          dsimp only at h
          rw [if_neg (Bool.eq_false_iff.mp hfound)] at h
          cases h

theorem resolveFrom_append_of_missing (deps' : List OsString)
    (h : (ldd.resolveFrom dirs seen deps).missing ≠ none) :
    ldd.resolveFrom dirs seen (deps ++ deps') = ldd.resolveFrom dirs seen deps := by
  induction deps generalizing seen with
  | nil => exact absurd rfl h
  | cons dep deps ih =>
      rw [resolveFrom] at h
      rw [List.cons_append, resolveFrom, resolveFrom]
      cases hfound : (ldd.searchFrom dirs seen dep).found with
      | true =>
          dsimp only at h
          rw [if_pos hfound] at h
          rw [if_pos rfl, if_pos rfl, ih h]
      | false => rw [if_neg Bool.false_ne_true, if_neg Bool.false_ne_true]

/-- The name that is missing is the first that its search misses. -/
theorem resolveFrom_missing :
    (ldd.resolveFrom dirs seen deps).missing = some dep ↔
      ∃ before after, deps = before ++ dep :: after ∧
        (ldd.resolveFrom dirs seen before).missing = none ∧
        (ldd.searchFrom dirs (ldd.resolveFrom dirs seen before).seen dep).found = false := by
  constructor
  · intro h
    induction deps generalizing seen with
    | nil => cases h
    | cons d deps ih =>
        rw [resolveFrom] at h
        dsimp only at h
        cases hfound : (ldd.searchFrom dirs seen d).found with
        | true =>
            rw [if_pos hfound] at h
            obtain ⟨before, after, rfl, hnone, hmissed⟩ := ih h
            refine ⟨d :: before, after, rfl, ?_⟩
            rw [resolveFrom]
            dsimp only
            rw [if_pos hfound]
            exact ⟨hnone, hmissed⟩
        | false =>
            rw [if_neg (Bool.eq_false_iff.mp hfound)] at h
            obtain rfl := Option.some.inj h
            exact ⟨[], deps, rfl, rfl, hfound⟩
  · intro hex
    obtain ⟨before, after, heq, hnone, hmissed⟩ := hex
    rw [heq, resolveFrom_append _ hnone, resolveFrom]
    dsimp only
    rw [if_neg (Bool.eq_false_iff.mp hmissed)]

/-- What the loop takes is what is offered to it at the names it reaches. -/
theorem mem_resolveFrom_taken {j : OsString} :
    j ∈ (ldd.resolveFrom dirs seen deps).taken ↔
      ∃ before dep after, deps = before ++ dep :: after ∧
        (ldd.resolveFrom dirs seen before).missing = none ∧
        Offers ldd dirs (ldd.resolveFrom dirs seen before).seen dep j := by
  constructor
  · intro h
    induction deps generalizing seen with
    | nil => cases h
    | cons d deps ih =>
        rw [resolveFrom] at h
        dsimp only at h
        cases hfound : (ldd.searchFrom dirs seen d).found with
        | true =>
            rw [if_pos hfound] at h
            rcases List.mem_append.mp h with h | h
            · exact ⟨[], d, deps, rfl, rfl, mem_searchFrom_taken.mp h⟩
            · obtain ⟨before, dep, after, rfl, hnone, hoffer⟩ := ih h
              refine ⟨d :: before, dep, after, rfl, ?_⟩
              rw [resolveFrom]
              dsimp only
              rw [if_pos hfound]
              exact ⟨hnone, hoffer⟩
        | false =>
            rw [if_neg (Bool.eq_false_iff.mp hfound)] at h
            cases h
  · intro hex
    obtain ⟨before, dep, after, heq, hnone, hoffer⟩ := hex
    have htaken := mem_searchFrom_taken.mpr hoffer
    rw [heq, resolveFrom_append _ hnone, resolveFrom]
    dsimp only
    cases hfound : (ldd.searchFrom dirs (ldd.resolveFrom dirs seen before).seen dep).found with
    | true =>
        rw [if_pos rfl]
        exact List.mem_append_right _ (List.mem_append_left _ htaken)
    | false =>
        rw [searchFrom_taken_of_missed hfound] at htaken
        cases htaken

theorem resolveFrom_seen_mono : seen ⊆ (ldd.resolveFrom dirs seen deps).seen := by
  induction deps generalizing seen with
  | nil => exact Finset.Subset.refl seen
  | cons d deps ih =>
      rw [resolveFrom]
      dsimp only
      split
      · exact searchFrom_seen_mono.trans ih
      · exact searchFrom_seen_mono

theorem resolveFrom_taken_seen {j : OsString} (h : j ∈ (ldd.resolveFrom dirs seen deps).taken) :
    j ∈ (ldd.resolveFrom dirs seen deps).seen := by
  induction deps generalizing seen with
  | nil => cases h
  | cons d deps ih =>
      rw [resolveFrom] at h ⊢
      dsimp only at h ⊢
      split at h
      · rename_i hfound
        rw [if_pos hfound]
        rcases List.mem_append.mp h with h | h
        · exact resolveFrom_seen_mono (searchFrom_taken_seen h)
        · exact ih h
      · cases h

theorem resolveFrom_taken_new {j : OsString} (h : j ∈ (ldd.resolveFrom dirs seen deps).taken) :
    j ∉ seen := by
  obtain ⟨before, dep, after, _, _, hoffer⟩ := mem_resolveFrom_taken.mp h
  exact fun hmem => hoffer.new (resolveFrom_seen_mono hmem)

end Loop

/-! ## `recurse` -/

section Recurse

variable {iter : Iter} {path : OsString} {lpaths : Finset OsString} {sc : Scanned}

/-- `recurse` on an object that can be scanned is the loop over its names. -/
theorem recurse_alone (shared : Shared ldd.fs) (hscan : ldd.fs.scan path lpaths = .ok sc) :
    ((ldd.recurse iter path lpaths).alone ldd.system shared).result =
      some ((ldd.resolveFrom (iter.val sc.lpaths) shared.visited sc.deps).result sc.lpaths) ∧
    ((ldd.recurse iter path lpaths).alone ldd.system shared).enqueued =
      itemsOf sc.lpaths (ldd.resolveFrom (iter.val sc.lpaths) shared.visited sc.deps).taken := by
  rw [recurse, hscan]
  have h := (ends_resolve ldd sc.lpaths shared.visited (iter.val sc.lpaths) sc.deps).bind
    (f := fun r => Pure.pure (some r)) (.pure (some _)) shared rfl
  rw [List.append_nil] at h
  exact ⟨h.1, h.2.1⟩

theorem scanEntry_ne_err (s : Scanned) (entry : Dynamic) (e : RecurseError) :
    scanEntry path s entry ≠ .err e := by
  rw [scanEntry]
  split
  · split
    · split
      · exact fun h => by cases h
      · exact fun h => by cases h
    · split
      · exact fun h => by cases h
      · exact fun h => by cases h
  · exact fun h => by cases h

theorem scanEntries_ne_err (s : Scanned) (entries : List Dynamic) (e : RecurseError) :
    scanEntries path s entries ≠ .err e := by
  induction entries generalizing s with
  | nil => exact fun h => by cases h
  | cons entry entries ih =>
      rw [scanEntries]
      cases h : scanEntry path s entry with
      | ok s' => exact ih s'
      | err e' => exact absurd h (scanEntry_ne_err s entry e')
      | panic => exact fun h => by cases h

theorem scanSections_ne_err (file : List UInt8) (is : List Nat) (elf : Elf) (s : Scanned)
    (e : RecurseError) : scanSections file path is elf s ≠ .err e := by
  induction is generalizing elf s with
  | nil => exact fun h => by cases h
  | cons i is ih =>
      rw [scanSections]
      split
      · exact fun h => by cases h
      · split
        · split
          · split
            · exact fun h => by cases h
            · rename_i entries _
              cases h : scanEntries path s entries with
              | ok s' => exact ih _ s'
              | err e' => exact absurd h (scanEntries_ne_err s entries e')
              | panic => exact fun h => by cases h
          · exact fun h => by cases h
        · exact ih _ s

/-- Reading an object never reports a missing name. -/
theorem scan_ne_missing (dep : OsString) (dirs : Finset OsString) :
    ldd.fs.scan path lpaths ≠ .err (.unableToFindDependency dep dirs) := by
  rw [FileSystem.scan]
  split
  · exact fun h => by cases h
  · exact fun h => by cases h
  · split
    · exact scanSections_ne_err _ _ _ _ _
    · exact fun h => by cases h
    · exact fun h => by cases h
    · exact fun h => by cases h

/-- `recurse` reports the name that the loop is missing, and no other. -/
theorem recurse_reports (shared : Shared ldd.fs) {dep : OsString} {dirs : Finset OsString} :
    ((ldd.recurse iter path lpaths).alone ldd.system shared).result =
        some (.error (.unableToFindDependency dep dirs)) ↔
      ∃ sc, ldd.fs.scan path lpaths = .ok sc ∧ sc.lpaths = dirs ∧
        (ldd.resolveFrom (iter.val sc.lpaths) shared.visited sc.deps).missing = some dep := by
  cases hscan : ldd.fs.scan path lpaths with
  | ok sc =>
      rw [(recurse_alone shared hscan).1, Resolution.result]
      constructor
      · intro h
        refine ⟨sc, rfl, ?_⟩
        split at h
        · rename_i hmissing
          cases h
          exact ⟨rfl, hmissing⟩
        · cases h
      · intro hex
        obtain ⟨sc', heq, hdirs, hmissing⟩ := hex
        obtain rfl := Outcome.ok.inj heq
        subst hdirs
        rw [hmissing]
  | err e =>
      rw [recurse, hscan]
      refine iff_of_false ?_ (fun hex => by cases hex.choose_spec.1)
      intro h
      have he : e = .unableToFindDependency dep dirs := Except.error.inj (Option.some.inj h)
      exact scan_ne_missing dep dirs (he ▸ hscan)
  | panic =>
      rw [recurse, hscan]
      exact iff_of_false (fun h => by cases h) (fun hex => by cases hex.choose_spec.1)

end Recurse

end Ldd
end Elfkit
end DracutInstall

/-
What the calls of a worker of `ldd` are, and what a whole run makes of them.

`Worked` relates a worker to its calls on `visited` and the queue; the calls that
only fill the cache of canonical directories are left out.  The facts on runs
say where an element of `visited` comes from, and that a path which was put there
and can be installed has been taken from the queue.
-/
import DracutInstall.Elfkit.Ldd

namespace DracutInstall
namespace Elfkit

open ByteCodec Rust UnixPath WorkList

/-! ## Canonical directories -/

section Spelling

variable {fs : FileSystem}

/-- The spelling under which a candidate is probed. -/
def FileSystem.spelling (fs : FileSystem) (path : OsString) : OsString :=
  (fs.canonicalizeDir path).getD path

abbrev Calls (fs : FileSystem) : Type := List (Event (Op fs) (Res fs))

/-- The answer of an `insert` into `visited`. -/
def tried (stage : Stage) (path : OsString) (new : Bool) : Event (Op fs) (Res fs) :=
  ⟨.insert stage path, new⟩

def queued (item : Item) : Event (Op fs) (Res fs) := ⟨.enqueue item, ()⟩

/-- The call is on `visited` or on the queue. -/
def onList : Op fs → Bool
  | .insert _ _ => true
  | .enqueue _ => true
  | _ => false

def visible (es : Calls fs) : Calls fs := es.filter fun e => onList e.op

theorem visible_append (es es' : Calls fs) : visible (es ++ es') = visible es ++ visible es' :=
  List.filter_append ..

theorem visible_subset (es : Calls fs) : visible es ⊆ es := List.filter_subset_self _

theorem runs_visit {stage : Stage} {path : OsString} {es : Calls fs} {new : Bool}
    (h : Runs (visit stage path) es new) : visible es = [tried stage path new] := by
  have hes := runs_op.mp h
  subst hes
  rfl

theorem runs_enqueue {item : Item} {es : Calls fs} {u : Unit}
    (h : Runs (enqueue item) es u) : visible es = [queued item] := by
  have hes := runs_op.mp h
  subst hes
  rfl

theorem runs_canonicalize {path : OsString} {es : Calls fs} {r : Option OsString}
    (h : Runs (canonicalize path) es r) : r = fs.canonicalize path ∧ visible es = [] := by
  rw [canonicalize, runs_bind] at h
  obtain ⟨cached, es₁, es₂, rfl, hget, h⟩ := h
  have hes := runs_op.mp hget
  subst hes
  rw [visible_append]
  cases cached with
  | some val =>
      obtain ⟨rfl, rfl⟩ := runs_pure.mp h
      exact ⟨val.property.symm, rfl⟩
  | none =>
      dsimp only at h
      split at h
      · rename_i hnone
        obtain ⟨rfl, rfl⟩ := runs_pure.mp h
        exact ⟨hnone.symm, rfl⟩
      · rename_i val hsome
        obtain ⟨u, es₃, es₄, rfl, hput, hlast⟩ := runs_bind.mp h
        have hes := runs_op.mp hput
        subst hes
        obtain ⟨rfl, rfl⟩ := runs_pure.mp hlast
        exact ⟨hsome.symm, rfl⟩

theorem runs_canonicalizeDir {path : OsString} {es : Calls fs} {r : Option OsString}
    (h : Runs (canonicalizeDir path) es r) : r = fs.canonicalizeDir path ∧ visible es = [] := by
  rw [canonicalizeDir] at h
  rw [FileSystem.canonicalizeDir]
  cases hname : fileName path with
  | none =>
      rw [hname] at h
      obtain ⟨rfl, rfl⟩ := runs_pure.mp h
      exact ⟨rfl, rfl⟩
  | some name =>
      cases hdir : parent path with
      | none =>
          rw [hname, hdir] at h
          obtain ⟨rfl, rfl⟩ := runs_pure.mp h
          exact ⟨rfl, rfl⟩
      | some dirname =>
          rw [hname, hdir] at h
          obtain ⟨canon, es₁, es₂, rfl, hcanon, h⟩ := runs_bind.mp h
          obtain ⟨rfl, rfl⟩ := runs_pure.mp h
          obtain ⟨rfl, hvis⟩ := runs_canonicalize hcanon
          refine ⟨?_, by rw [List.append_nil, hvis]⟩
          cases hc : fs.canonicalize dirname <;> simp [hc]

theorem runs_spell {path : OsString} {es : Calls fs} {joined : OsString}
    (h : Runs (spell path) es joined) : joined = fs.spelling path ∧ visible es = [] := by
  obtain ⟨canon, es₁, es₂, rfl, hcanon, h⟩ := runs_bind.mp h
  obtain ⟨rfl, rfl⟩ := runs_pure.mp h
  obtain ⟨rfl, hvis⟩ := runs_canonicalizeDir hcanon
  exact ⟨rfl, by rw [List.append_nil, hvis]⟩

end Spelling

namespace Ldd

variable {ldd : Ldd}

/-! ## One search -/

/-- The candidate of a directory, as it is probed. -/
def candidate (ldd : Ldd) (dep dir : OsString) : OsString := ldd.fs.spelling (push dir dep)

/-- The calls of a loop over directories with the given candidates. -/
inductive Probed (ldd : Ldd) (lpaths : Finset OsString) :
    List OsString → Calls ldd.fs → Bool → Prop
  | exhausted : Probed ldd lpaths [] [] false
  | hit (j : OsString) (js : List OsString) :
      Probed ldd lpaths (j :: js) [tried .directory j false] true
  | found (j : OsString) (js : List OsString) : ldd.installable j = true →
      Probed ldd lpaths (j :: js) [tried .directory j true, queued ⟨j, lpaths⟩] true
  | missed (j : OsString) {js : List OsString} {es : Calls ldd.fs} {b : Bool} :
      ldd.installable j = false → Probed ldd lpaths js es b →
      Probed ldd lpaths (j :: js) (tried .directory j true :: es) b

/-- The calls of the loop over the paths of the cache. -/
inductive ProbedListed (ldd : Ldd) (lpaths : Finset OsString) :
    List OsString → Calls ldd.fs → Prop
  | nil : ProbedListed ldd lpaths [] []
  | hit (j : OsString) {js : List OsString} {es : Calls ldd.fs} :
      ProbedListed ldd lpaths js es →
      ProbedListed ldd lpaths (j :: js) (tried .cache j false :: es)
  | found (j : OsString) {js : List OsString} {es : Calls ldd.fs} :
      ldd.installable j = true → ProbedListed ldd lpaths js es →
      ProbedListed ldd lpaths (j :: js) (tried .cache j true :: queued ⟨j, lpaths⟩ :: es)
  | missed (j : OsString) {js : List OsString} {es : Calls ldd.fs} :
      ldd.installable j = false → ProbedListed ldd lpaths js es →
      ProbedListed ldd lpaths (j :: js) (tried .cache j true :: es)

/-- The calls for one name; the search is in the directories, in the cache, and
in the default directories when the cache does not know the name. -/
inductive Searched (ldd : Ldd) (dirs : List OsString) (lpaths : Finset OsString)
    (dep : OsString) : Calls ldd.fs → Bool → Prop
  | inDirs {es : Calls ldd.fs} :
      Probed ldd lpaths (dirs.map (ldd.candidate dep)) es true → Searched ldd dirs lpaths dep es true
  | inCache {es es' : Calls ldd.fs} {vals : List OsString} :
      Probed ldd lpaths (dirs.map (ldd.candidate dep)) es false → ldd.listed dep = some vals →
      ProbedListed ldd lpaths (vals.map ldd.fs.spelling) es' →
      Searched ldd dirs lpaths dep (es ++ es') true
  | inDefault {es es' : Calls ldd.fs} {b : Bool} :
      Probed ldd lpaths (dirs.map (ldd.candidate dep)) es false → ldd.listed dep = none →
      Probed ldd lpaths (ldd.defaultLibdir.map (ldd.candidate dep)) es' b →
      Searched ldd dirs lpaths dep (es ++ es') b

inductive Resolved (ldd : Ldd) (dirs : List OsString) (lpaths : Finset OsString) :
    List OsString → Calls ldd.fs → Except RecurseError Unit → Prop
  | nil : Resolved ldd dirs lpaths [] [] (.ok ())
  | found (dep : OsString) {deps : List OsString} {es es' : Calls ldd.fs}
      {r : Except RecurseError Unit} :
      Searched ldd dirs lpaths dep es true → Resolved ldd dirs lpaths deps es' r →
      Resolved ldd dirs lpaths (dep :: deps) (es ++ es') r
  | missing (dep : OsString) (deps : List OsString) {es : Calls ldd.fs} :
      Searched ldd dirs lpaths dep es false →
      Resolved ldd dirs lpaths (dep :: deps) es (.error (.unableToFindDependency dep lpaths))

/-- The calls of a worker, and how it ends. -/
inductive Worked (ldd : Ldd) (iter : Iter) (item : Item) : Calls ldd.fs → Out → Prop
  | skipped : ldd.inDest item.path = true → Worked ldd iter item [] .skipped
  | failed {e : RecurseError} : ldd.inDest item.path = false →
      ldd.fs.scan item.path item.lpaths = .err e →
      Worked ldd iter item [] (.returned item.path (.error e))
  | panicked : ldd.inDest item.path = false → ldd.fs.scan item.path item.lpaths = .panic →
      Worked ldd iter item [] .panicked
  | searched {sc : Scanned} {es : Calls ldd.fs} {r : Except RecurseError Unit} :
      ldd.inDest item.path = false → ldd.fs.scan item.path item.lpaths = .ok sc →
      Resolved ldd (iter.val sc.lpaths) sc.lpaths sc.deps es r →
      Worked ldd iter item es (.returned item.path r)

theorem runs_probeDirs {lpaths : Finset OsString} {dep : OsString} {dirs : List OsString}
    {es : Calls ldd.fs} {b : Bool} (h : Runs (ldd.probeDirs lpaths dep dirs) es b) :
    Probed ldd lpaths (dirs.map (ldd.candidate dep)) (visible es) b := by
  induction dirs generalizing es with
  | nil =>
      obtain ⟨rfl, rfl⟩ := runs_pure.mp h
      exact .exhausted
  | cons dir dirs ih =>
      obtain ⟨joined, es₁, es₂, rfl, hspell, h⟩ := runs_bind.mp h
      obtain ⟨new, es₃, es₄, rfl, hvisit, h⟩ := runs_bind.mp h
      obtain ⟨rfl, hvis⟩ := runs_spell hspell
      rw [visible_append, visible_append, hvis, runs_visit hvisit, List.nil_append, List.map_cons]
      cases new with
      | false =>
          obtain ⟨rfl, rfl⟩ := runs_pure.mp h
          exact .hit _ _
      | true =>
          rw [if_pos rfl] at h
          split at h
          · rename_i hinst
            obtain ⟨u, es₅, es₆, rfl, henq, h⟩ := runs_bind.mp h
            obtain ⟨rfl, rfl⟩ := runs_pure.mp h
            rw [List.append_nil, runs_enqueue henq]
            exact .found _ _ hinst
          · rename_i hinst
            exact .missed _ (Bool.eq_false_iff.mpr hinst) (ih h)

theorem runs_probeListed {lpaths : Finset OsString} {vals : List OsString}
    {es : Calls ldd.fs} {u : Unit} (h : Runs (ldd.probeListed lpaths vals) es u) :
    ProbedListed ldd lpaths (vals.map ldd.fs.spelling) (visible es) := by
  induction vals generalizing es with
  | nil =>
      obtain ⟨rfl, _⟩ := runs_pure.mp h
      exact .nil
  | cons f vals ih =>
      obtain ⟨joined, es₁, es₂, rfl, hspell, h⟩ := runs_bind.mp h
      obtain ⟨new, es₃, es₄, rfl, hvisit, h⟩ := runs_bind.mp h
      obtain ⟨rfl, hvis⟩ := runs_spell hspell
      rw [visible_append, visible_append, hvis, runs_visit hvisit, List.nil_append, List.map_cons]
      cases new with
      | false => exact .hit _ (ih h)
      | true =>
          rw [if_pos rfl] at h
          split at h
          · rename_i hinst
            obtain ⟨u, es₅, es₆, rfl, henq, h⟩ := runs_bind.mp h
            rw [visible_append, runs_enqueue henq]
            exact .found _ hinst (ih h)
          · rename_i hinst
            exact .missed _ (Bool.eq_false_iff.mpr hinst) (ih h)

theorem runs_search {dirs : List OsString} {lpaths : Finset OsString} {dep : OsString}
    {es : Calls ldd.fs} {b : Bool} (h : Runs (ldd.search dirs lpaths dep) es b) :
    Searched ldd dirs lpaths dep (visible es) b := by
  obtain ⟨found, es₁, es₂, rfl, hdirs, h⟩ := runs_bind.mp h
  have hprobed := runs_probeDirs hdirs
  rw [visible_append]
  cases found with
  | true =>
      obtain ⟨rfl, rfl⟩ := runs_pure.mp h
      exact .inDirs (by simpa [visible] using hprobed)
  | false =>
      rw [if_neg Bool.false_ne_true] at h
      cases hlisted : ldd.listed dep with
      | some vals =>
          rw [hlisted] at h
          obtain ⟨u, es₃, es₄, rfl, hvals, h⟩ := runs_bind.mp h
          obtain ⟨rfl, rfl⟩ := runs_pure.mp h
          rw [List.append_nil]
          exact .inCache hprobed hlisted (runs_probeListed hvals)
      | none =>
          rw [hlisted] at h
          exact .inDefault hprobed hlisted (runs_probeDirs h)

theorem runs_resolve {dirs : List OsString} {lpaths : Finset OsString} {deps : List OsString}
    {es : Calls ldd.fs} {r : Except RecurseError Unit}
    (h : Runs (ldd.resolve dirs lpaths deps) es r) :
    Resolved ldd dirs lpaths deps (visible es) r := by
  induction deps generalizing es with
  | nil =>
      obtain ⟨rfl, rfl⟩ := runs_pure.mp h
      exact .nil
  | cons dep deps ih =>
      obtain ⟨found, es₁, es₂, rfl, hsearch, h⟩ := runs_bind.mp h
      have hsearched := runs_search hsearch
      rw [visible_append]
      cases found with
      | true => exact .found dep hsearched (ih h)
      | false =>
          obtain ⟨rfl, rfl⟩ := runs_pure.mp h
          rw [show visible ([] : Calls ldd.fs) = [] from rfl, List.append_nil]
          exact .missing dep deps hsearched

theorem runs_work {iter : Iter} {item : Item} {es : Calls ldd.fs} {out : Out}
    (h : Runs (ldd.work iter item) es out) : Worked ldd iter item (visible es) out := by
  rw [work] at h
  split at h
  · rename_i hdest
    obtain ⟨rfl, rfl⟩ := runs_pure.mp h
    exact .skipped hdest
  · rename_i hdest
    have hdest := Bool.eq_false_iff.mpr hdest
    obtain ⟨r, es₁, es₂, rfl, hrec, h⟩ := runs_bind.mp h
    rw [recurse] at hrec
    cases hscan : ldd.fs.scan item.path item.lpaths with
    | ok sc =>
        rw [hscan] at hrec
        obtain ⟨r', es₃, es₄, rfl, hres, hrec⟩ := runs_bind.mp hrec
        obtain ⟨rfl, rfl⟩ := runs_pure.mp hrec
        obtain ⟨rfl, rfl⟩ := runs_pure.mp h
        rw [List.append_nil, List.append_nil]
        exact .searched hdest hscan (runs_resolve hres)
    | err e =>
        rw [hscan] at hrec
        obtain ⟨rfl, rfl⟩ := runs_pure.mp hrec
        obtain ⟨rfl, rfl⟩ := runs_pure.mp h
        exact .failed hdest hscan
    | panic =>
        rw [hscan] at hrec
        obtain ⟨rfl, rfl⟩ := runs_pure.mp hrec
        obtain ⟨rfl, rfl⟩ := runs_pure.mp h
        exact .panicked hdest hscan

end Ldd
end Elfkit
end DracutInstall

/-
Whole runs of `ldd`.

`visited` holds the arguments and what a call put there, each path once.  A path
that was put there and can be installed is on the queue, so a complete run takes
it; what a run collects are the paths it took that are not below `dest_path`.
-/
import DracutInstall.Elfkit.LddSearch

namespace DracutInstall
namespace Elfkit

open ByteCodec Rust UnixPath WorkList

namespace Ldd

variable {ldd : Ldd}

/-! ## Insertions and the queue in one worker's calls -/

/-- The path a call has put into `visited`. -/
def freshPath : Event (Op ldd.fs) (Res ldd.fs) → Option OsString
  | ⟨.insert _ path, new⟩ => if new = true then some path else none
  | _ => none

def fresh (es : Calls ldd.fs) : List OsString := es.filterMap freshPath

def queuedPaths (es : Calls ldd.fs) : List OsString :=
  es.filterMap fun e => (enqueues e.op).map Item.path

theorem fresh_append (es es' : Calls ldd.fs) : fresh (es ++ es') = fresh es ++ fresh es' :=
  List.filterMap_append

theorem queuedPaths_append (es es' : Calls ldd.fs) :
    queuedPaths (es ++ es') = queuedPaths es ++ queuedPaths es' :=
  List.filterMap_append

theorem mem_fresh {es : Calls ldd.fs} {j : OsString} :
    j ∈ fresh es ↔ ∃ stage, tried stage j true ∈ es := by
  rw [fresh, List.mem_filterMap]
  constructor
  · rintro ⟨⟨op, r⟩, he, hfresh⟩
    cases op with
    | insert stage path =>
        cases r with
        | true =>
            obtain rfl : path = j := Option.some.inj hfresh
            exact ⟨stage, he⟩
        | false => cases hfresh
    | canonGet path => cases hfresh
    | canonPut path val => cases hfresh
    | enqueue item => cases hfresh
  · rintro ⟨stage, he⟩
    exact ⟨_, he, rfl⟩

theorem fresh_cons (e : Event (Op ldd.fs) (Res ldd.fs)) (es : Calls ldd.fs) :
    fresh (e :: es) = (freshPath e).toList ++ fresh es := by
  cases h : freshPath e <;> simp [fresh, h]

@[simp] theorem fresh_tried (stage : Stage) (j : OsString) (new : Bool) (es : Calls ldd.fs) :
    fresh (tried stage j new :: es) = if new = true then j :: fresh es else fresh es := by
  cases new <;> rfl

@[simp] theorem fresh_queued (item : Item) (es : Calls ldd.fs) :
    fresh (queued item :: es) = fresh es := rfl

@[simp] theorem queuedPaths_tried (stage : Stage) (j : OsString) (new : Bool)
    (es : Calls ldd.fs) : queuedPaths (tried stage j new :: es) = queuedPaths es := rfl

@[simp] theorem queuedPaths_queued (item : Item) (es : Calls ldd.fs) :
    queuedPaths (queued item :: es) = item.path :: queuedPaths es := rfl

theorem fresh_visible (es : Calls ldd.fs) : fresh (visible es) = fresh es := by
  induction es with
  | nil => rfl
  | cons e es ih =>
      obtain ⟨op, r⟩ := e
      rw [fresh_cons, ← ih]
      cases op with
      | insert stage path => exact fresh_cons _ _
      | enqueue item => rfl
      | canonGet path => rfl
      | canonPut path val => rfl

theorem queuedPaths_visible (es : Calls ldd.fs) : queuedPaths (visible es) = queuedPaths es := by
  induction es with
  | nil => rfl
  | cons e es ih =>
      obtain ⟨op, r⟩ := e
      cases op with
      | insert stage path => exact ih
      | enqueue item => exact congrArg (item.path :: ·) ih
      | canonGet path => exact ih
      | canonPut path val => exact ih

theorem eq_queued {ev : Event (Op ldd.fs) (Res ldd.fs)} {item : Item}
    (h : enqueues ev.op = some item) : ev = queued item := by
  obtain ⟨op, r⟩ := ev
  cases op with
  | enqueue item' =>
      cases h
      rfl
  | insert stage path => cases h
  | canonGet path => cases h
  | canonPut path val => cases h

section Worker

variable {dirs : List OsString} {lpaths : Finset OsString} {es : Calls ldd.fs}

/-- In each loop, a path that was put into `visited` is on the queue when it can
be installed, and is not otherwise. -/
theorem Probed.queuedPaths_eq {js : List OsString} {b : Bool} (h : Probed ldd lpaths js es b) :
    queuedPaths es = (fresh es).filter ldd.installable := by
  induction h with
  | exhausted => rfl
  | hit j js => rfl
  | found j js hinst =>
      rw [fresh_tried, if_pos rfl, fresh_queued, List.filter_cons_of_pos hinst]
      rfl
  | missed j hinst _ ih => simpa [hinst] using ih

theorem ProbedListed.queuedPaths_eq {js : List OsString} (h : ProbedListed ldd lpaths js es) :
    queuedPaths es = (fresh es).filter ldd.installable := by
  induction h with
  | nil => rfl
  | hit j _ ih => simpa using ih
  | found j hinst _ ih => simpa [hinst] using ih
  | missed j hinst _ ih => simpa [hinst] using ih

theorem Searched.queuedPaths_eq {dep : OsString} {b : Bool}
    (h : Searched ldd dirs lpaths dep es b) :
    queuedPaths es = (fresh es).filter ldd.installable := by
  cases h with
  | inDirs hdirs => exact hdirs.queuedPaths_eq
  | inCache hdirs _ hvals =>
      rw [queuedPaths_append, fresh_append, List.filter_append, hdirs.queuedPaths_eq,
        hvals.queuedPaths_eq]
  | inDefault hdirs _ hdefault =>
      rw [queuedPaths_append, fresh_append, List.filter_append, hdirs.queuedPaths_eq,
        hdefault.queuedPaths_eq]

theorem Resolved.queuedPaths_eq {deps : List OsString} {r : Except RecurseError Unit}
    (h : Resolved ldd dirs lpaths deps es r) :
    queuedPaths es = (fresh es).filter ldd.installable := by
  induction h with
  | nil => rfl
  | found dep hsearch _ ih =>
      rw [queuedPaths_append, fresh_append, List.filter_append, hsearch.queuedPaths_eq, ih]
  | missing dep deps hsearch => exact hsearch.queuedPaths_eq

theorem Worked.queuedPaths_eq {iter : Iter} {item : Item} {out : Out}
    (h : Worked ldd iter item es out) :
    queuedPaths es = (fresh es).filter ldd.installable := by
  cases h with
  | skipped _ => rfl
  | failed _ _ => rfl
  | panicked _ _ => rfl
  | searched _ _ hres => exact hres.queuedPaths_eq

end Worker

/-! ## The set `visited` -/

section History

variable {cond : Shared ldd.fs → Item → Op ldd.fs → Prop} {shared₀ shared : Shared ldd.fs}
  {hs : List (Entry (Op ldd.fs) (Res ldd.fs) Item)}

def freshIn (hs : List (Entry (Op ldd.fs) (Res ldd.fs) Item)) : List OsString :=
  fresh (hs.map Entry.event)

theorem freshIn_snoc (hs : List (Entry (Op ldd.fs) (Res ldd.fs) Item))
    (e : Entry (Op ldd.fs) (Res ldd.fs) Item) :
    freshIn (hs ++ [e]) = freshIn hs ++ (freshPath e.event).toList := by
  rw [freshIn, List.map_append, fresh_append]
  cases h : freshPath e.event <;> simp [fresh, h, freshIn]

/-- What one call does to `visited`. -/
theorem mem_exec (shared : Shared ldd.fs) (op : Op ldd.fs) (j : OsString) :
    j ∈ (exec op shared).2.visited ↔
      j ∈ shared.visited ∨ freshPath ⟨op, (exec op shared).1⟩ = some j := by
  cases op with
  | canonGet path => simp [exec, freshPath]
  | canonPut path val => simp [exec, freshPath]
  | enqueue item => simp [exec, freshPath]
  | insert stage path =>
      by_cases hin : path ∈ shared.visited
      · simp [exec, freshPath, hin]
      · simp [exec, freshPath, hin, or_comm, eq_comm]

theorem freshPath_exec {op : Op ldd.fs} {j : OsString}
    (h : freshPath ⟨op, (exec op shared).1⟩ = some j) : j ∉ shared.visited := by
  cases op with
  | canonGet path => cases h
  | canonPut path val => cases h
  | enqueue item => cases h
  | insert stage path =>
      by_cases hin : path ∈ shared.visited
      · simp [exec, freshPath, hin] at h
      · obtain rfl : path = j := by simpa [exec, freshPath, hin] using h
        exact hin

/-- Each path is put into `visited` once, and nothing is ever taken out. -/
theorem replay_fresh (h : Replay ldd.system cond shared₀ hs shared) :
    (freshIn hs).Nodup ∧ (∀ j ∈ freshIn hs, j ∉ shared₀.visited) ∧
    ∀ j, j ∈ shared.visited ↔ j ∈ shared₀.visited ∨ j ∈ freshIn hs := by
  induction h with
  | nil =>
      refine ⟨List.nodup_nil, ?_, fun j => ?_⟩
      · intro j hj
        cases hj
      · show _ ↔ _ ∨ j ∈ []
        simp
  | @snoc hs shared item op _ _ ih =>
      obtain ⟨hnodup, hnew, hvisited⟩ := ih
      have hsnoc := freshIn_snoc hs ⟨item, ⟨op, (exec op shared).1⟩⟩
      have hmem := mem_exec shared op
      show (freshIn (hs ++ [⟨item, ⟨op, (exec op shared).1⟩⟩])).Nodup ∧
        (∀ j ∈ freshIn (hs ++ [⟨item, ⟨op, (exec op shared).1⟩⟩]), _) ∧
        ∀ j, j ∈ (exec op shared).2.visited ↔
          _ ∨ j ∈ freshIn (hs ++ [⟨item, ⟨op, (exec op shared).1⟩⟩])
      rw [hsnoc]
      cases hf : freshPath ⟨op, (exec op shared).1⟩ with
      | none =>
          rw [Option.toList_none, List.append_nil]
          refine ⟨hnodup, hnew, fun j => ?_⟩
          rw [hmem, hf, hvisited]
          simp
      | some path =>
          have hout := freshPath_exec hf
          rw [hvisited, not_or] at hout
          refine ⟨?_, ?_, fun j => ?_⟩
          · refine List.nodup_append.mpr ⟨hnodup, List.nodup_singleton _, ?_⟩
            rintro a ha b hb rfl
            exact hout.2 (List.mem_singleton.mp hb ▸ ha)
          · intro j hj
            rcases List.mem_append.mp hj with hj | hj
            · exact hnew j hj
            · rw [List.mem_singleton.mp hj]
              exact hout.1
          · rw [hmem, hf, hvisited, List.mem_append, Option.toList_some, List.mem_singleton,
              Option.some.injEq, or_assoc, eq_comm (a := path)]

/-- A path that was met in `visited` stays there, and the call met the condition. -/
theorem replay_hit (h : Replay ldd.system cond shared₀ hs shared) {item : Item} {stage : Stage}
    {j : OsString} (he : ⟨item, tried stage j false⟩ ∈ hs) :
    j ∈ shared.visited ∧ ∃ sh, cond sh item (.insert stage j) ∧ j ∈ sh.visited := by
  induction h with
  | nil => cases he
  | @snoc hs shared item' op _ hcond ih =>
      rcases List.mem_append.mp he with he | he
      · obtain ⟨hin, hsh⟩ := ih he
        refine ⟨?_, hsh⟩
        cases op with
        | insert stage' path => exact Finset.mem_insert_of_mem hin
        | canonGet path => exact hin
        | canonPut path val => exact hin
        | enqueue item => exact hin
      · have heq := List.mem_singleton.mp he
        obtain ⟨rfl, hev⟩ : item = item' ∧ _ := Entry.mk.inj heq
        obtain ⟨rfl, hres⟩ := Event.mk.inj hev
        have hin : j ∈ shared.visited := by
          have hfalse : false = decide (j ∉ shared.visited) := eq_of_heq hres
          simpa using hfalse.symm
        exact ⟨Finset.mem_insert_of_mem hin, shared, hcond, hin⟩

end History

/-- The calls of the history are those of the workers. -/
theorem entries_perm {cond : Shared ldd.fs → Item → Op ldd.fs → Prop} {shared₀ : Shared ldd.fs}
    {queue₀ : List Item} {s : ldd.State} (h : Account ldd.system cond shared₀ queue₀ s) :
    (s.history.map Entry.event).Perm (s.workers.flatMap fun w => w.log) := by
  refine (h.entries.map Entry.event).trans (List.Perm.of_eq ?_)
  rw [List.map_flatMap]
  refine List.flatMap_congr fun w _ => ?_
  rw [Worker.entries, List.map_map]
  exact List.map_id _

/-! ## Reachable states -/

/-- A state that a run on a list of files passes through. -/
structure Reached (ldd : Ldd) (files args : List OsString) (schedule : List (Choice Iter))
    (s : ldd.State) : Prop where
  canonical : files.mapM ldd.fs.canonicalizeDir = some args
  run : WorkList.run ldd.system (ldd.start args) schedule = some s

theorem Finished.reached {files args : List OsString} {schedule : List (Choice Iter)}
    {s : ldd.State} (h : ldd.Finished files args schedule s) :
    ldd.Reached files args schedule s :=
  ⟨h.canonical, h.run⟩

namespace Reached

variable {files args : List OsString} {schedule : List (Choice Iter)} {s : ldd.State}

theorem account (h : ldd.Reached files args schedule s)
    {cond : Shared ldd.fs → Item → Op ldd.fs → Prop}
    (hcond : Meets ldd.system cond (ldd.start args) schedule) :
    Account ldd.system cond { visited := args.toFinset, canonCache := ∅ }
      (args.map fun path => ⟨path, ∅⟩) s :=
  Account.start.run hcond h.run

/-- What holds of the arguments, and of what an object put on the queue whenever
it holds of the object, holds of every item. -/
theorem item_induction (h : ldd.Reached files args schedule s) {p : Item → Prop}
    (hargs : ∀ path ∈ args, p ⟨path, ∅⟩)
    (hstep : ∀ w ∈ s.workers, p w.item → ∀ item, queued item ∈ w.log → p item) :
    ∀ item ∈ s.queue ++ s.workers.map Worker.item, p item := by
  have hacc := h.account (meets_true _ _)
  have hfirst (item : Item) (hmem : item ∈ args.map fun path => (⟨path, ∅⟩ : Item)) :
      p item := by
    obtain ⟨path, hpath, rfl⟩ := List.mem_map.mp hmem
    exact hargs path hpath
  have hpast (hs : List (Entry (Op ldd.fs) (Res ldd.fs) Item)) :
      ∀ hs', s.history = hs ++ hs' → ∀ item ∈ enqueued ldd.system hs, p item := by
    induction hs using List.reverseRecOn with
    | nil => exact fun _ _ item hitem => nomatch hitem
    | append_singleton hs e ih =>
        intro hs' heq item hitem
        rw [List.append_assoc] at heq
        have hbefore := ih _ heq
        rw [enqueued, List.filterMap_append] at hitem
        rcases List.mem_append.mp hitem with hitem | hlast
        · exact hbefore item hitem
        · obtain ⟨e', he', henq⟩ := List.mem_filterMap.mp hlast
          obtain rfl := List.mem_singleton.mp he'
          have hmem : e' ∈ s.history := heq ▸ List.mem_append_right _ List.mem_cons_self
          obtain ⟨w, hw, hwe, hev⟩ := hacc.logged hmem
          have hpw : p w.item := by
            rw [hwe]
            rcases List.mem_append.mp (hacc.causal hs e' hs' heq) with harg | hqueued
            · exact hfirst _ harg
            · exact hbefore _ hqueued
          exact hstep w hw hpw item (eq_queued henq ▸ hev)
  intro item hmem
  rcases List.mem_append.mp (hacc.items.mem_iff.mp hmem) with harg | hqueued
  · exact hfirst item harg
  · exact hpast s.history [] (List.append_nil _).symm item hqueued

end Reached

/-! ## Complete runs -/

/-- A path is taken from the queue in the course of the run. -/
def Taken (s : ldd.State) (path : OsString) : Prop := ∃ w ∈ s.workers, w.item.path = path

section Run

variable {files args : List OsString} {schedule : List (Choice Iter)} {s : ldd.State}

namespace Finished

theorem account (h : ldd.Finished files args schedule s)
    {cond : Shared ldd.fs → Item → Op ldd.fs → Prop}
    (hcond : Meets ldd.system cond (ldd.start args) schedule) :
    Account ldd.system cond { visited := args.toFinset, canonCache := ∅ }
      (args.map fun path => ⟨path, ∅⟩) s :=
  h.reached.account hcond

theorem items (h : ldd.Finished files args schedule s) :
    (s.workers.map Worker.item).Perm
      ((args.map fun path => ⟨path, ∅⟩) ++ enqueued ldd.system s.history) :=
  ((h.account (meets_true _ _)).complete h.complete).1

theorem worked (h : ldd.Finished files args schedule s)
    {w : Worker (Op ldd.fs) (Res ldd.fs) Item Iter Out} (hw : w ∈ s.workers) :
    ∃ out, w.prog = .done out ∧ Worked ldd w.hint w.item (visible w.log) out := by
  obtain ⟨out, hout, hruns⟩ := ((h.account (meets_true _ _)).complete h.complete).2 w hw
  exact ⟨out, hout, runs_work hruns⟩

theorem args_taken (h : ldd.Finished files args schedule s) {path : OsString} (hp : path ∈ args) :
    Taken s path := by
  have hmem := h.items.mem_iff.mpr
    (List.mem_append_left _ (List.mem_map_of_mem (f := fun p => (⟨p, ∅⟩ : Item)) hp))
  obtain ⟨w, hw, hitem⟩ := List.mem_map.mp hmem
  exact ⟨w, hw, by rw [hitem]⟩

/-- A path on the queue is taken. -/
theorem queued_taken (h : ldd.Finished files args schedule s)
    {w : Worker (Op ldd.fs) (Res ldd.fs) Item Iter Out} (hw : w ∈ s.workers) {path : OsString}
    (hq : path ∈ queuedPaths w.log) : Taken s path := by
  obtain ⟨ev, hev, hpath⟩ := List.mem_filterMap.mp hq
  obtain ⟨item, henq, rfl⟩ := Option.map_eq_some_iff.mp hpath
  have hhist := (h.account (meets_true _ _)).recorded hw hev
  have hmem : item ∈ s.workers.map Worker.item :=
    h.items.mem_iff.mpr (List.mem_append_right _ (List.mem_filterMap.mpr ⟨_, hhist, henq⟩))
  obtain ⟨w', hw', rfl⟩ := List.mem_map.mp hmem
  exact ⟨w', hw', rfl⟩

theorem fresh_taken (h : ldd.Finished files args schedule s)
    {w : Worker (Op ldd.fs) (Res ldd.fs) Item Iter Out} (hw : w ∈ s.workers) {path : OsString}
    (hf : path ∈ fresh w.log) (hinst : ldd.installable path = true) : Taken s path := by
  obtain ⟨out, _, hworked⟩ := h.worked hw
  refine h.queued_taken hw ?_
  rw [← queuedPaths_visible, hworked.queuedPaths_eq, fresh_visible]
  exact List.mem_filter.mpr ⟨hf, hinst⟩

/-- Where an element of `visited` comes from. -/
theorem visited_cases (h : ldd.Finished files args schedule s) {path : OsString}
    (hp : path ∈ s.shared.visited) :
    path ∈ args ∨ ∃ w ∈ s.workers, path ∈ fresh w.log := by
  have hacc := h.account (meets_true _ _)
  obtain ⟨_, _, hvisited⟩ := replay_fresh hacc.replay
  rcases (hvisited path).mp hp with hp | hp
  · exact .inl (List.mem_toFinset.mp hp)
  · obtain ⟨stage, he⟩ := mem_fresh.mp hp
    obtain ⟨e, he, hev⟩ := List.mem_map.mp he
    obtain ⟨w, hw, _, hlog⟩ := hacc.logged he
    exact .inr ⟨w, hw, mem_fresh.mpr ⟨stage, hev ▸ hlog⟩⟩

/-- A path some worker tried is taken when it can be installed. -/
theorem tried_taken (h : ldd.Finished files args schedule s)
    {w : Worker (Op ldd.fs) (Res ldd.fs) Item Iter Out} (hw : w ∈ s.workers) {stage : Stage}
    {path : OsString} {new : Bool} (ht : tried stage path new ∈ w.log)
    (hinst : ldd.installable path = true) : Taken s path := by
  cases new with
  | true => exact h.fresh_taken hw (mem_fresh.mpr ⟨stage, ht⟩) hinst
  | false =>
      have hacc := h.account (meets_true _ _)
      have hhist := hacc.recorded hw ht
      rcases h.visited_cases (replay_hit hacc.replay hhist).1 with hp | ⟨w', hw', hf⟩
      · exact h.args_taken hp
      · exact h.fresh_taken hw' hf hinst

/-- A call that met a path in `visited` was made under the condition of the run. -/
theorem hit_cond (h : ldd.Finished files args schedule s)
    {cond : Shared ldd.fs → Item → Op ldd.fs → Prop}
    (hcond : Meets ldd.system cond (ldd.start args) schedule)
    {w : Worker (Op ldd.fs) (Res ldd.fs) Item Iter Out} (hw : w ∈ s.workers) {stage : Stage}
    {path : OsString} (ht : tried stage path false ∈ w.log) :
    ∃ sh, cond sh w.item (.insert stage path) ∧ path ∈ sh.visited := by
  have hacc := h.account hcond
  have hhist := hacc.recorded hw ht
  exact (replay_hit hacc.replay hhist).2

/-- The paths a run takes: the arguments, and each installable path that was put
into `visited`. -/
theorem taken_perm (h : ldd.Finished files args schedule s) :
    (s.workers.map fun w => w.item.path).Perm
      (args ++ (freshIn s.history).filter ldd.installable) := by
  have hacc := h.account (meets_true _ _)
  have hitems := h.items.map Item.path
  rw [List.map_map, List.map_append, List.map_map] at hitems
  have hargs : args.map (Item.path ∘ fun path => (⟨path, ∅⟩ : Item)) = args := List.map_id args
  have henq : (enqueued ldd.system s.history).map Item.path =
      queuedPaths (s.history.map Entry.event) := by
    rw [enqueued, List.map_filterMap, queuedPaths, List.filterMap_map]
    rfl
  have hentries := entries_perm hacc
  have hlogs : queuedPaths (s.workers.flatMap fun w => w.log) =
      (fresh (s.workers.flatMap fun w => w.log)).filter ldd.installable := by
    rw [queuedPaths, fresh, List.filterMap_flatMap, List.filterMap_flatMap, List.filter_flatMap]
    refine List.flatMap_congr fun w hw => ?_
    obtain ⟨out, _, hworked⟩ := h.worked hw
    have heq := hworked.queuedPaths_eq
    rwa [queuedPaths_visible, fresh_visible] at heq
  have hqueued : (queuedPaths (s.history.map Entry.event)).Perm
      (queuedPaths (s.workers.flatMap fun w => w.log)) := hentries.filterMap _
  have hfresh : (fresh (s.workers.flatMap fun w => w.log)).Perm (freshIn s.history) :=
    (hentries.filterMap _).symm
  rw [hlogs] at hqueued
  rw [hargs, henq] at hitems
  exact hitems.trans (List.Perm.append_left _ (hqueued.trans (hfresh.filter _)))

/-- What holds of the arguments, and of what an object put on the queue whenever
it holds of the object, holds of everything a run takes. -/
theorem taken_induction (h : ldd.Finished files args schedule s) {p : OsString → Prop}
    (hargs : ∀ path ∈ args, p path)
    (hstep : ∀ w ∈ s.workers, p w.item.path → ∀ path ∈ queuedPaths w.log, p path) :
    ∀ path, Taken s path → p path := by
  rintro path ⟨w, hw, rfl⟩
  refine h.reached.item_induction (p := fun item => p item.path) hargs ?_ w.item
    (List.mem_append_right _ (List.mem_map_of_mem hw))
  intro w' hw' hp item hitem
  exact hstep w' hw' hp _ (List.mem_filterMap.mpr ⟨_, hitem, rfl⟩)

end Finished

namespace Ran

/-- What is collected: the paths taken that are not below `dest_path`. -/
theorem collected_eq (h : ldd.Ran files args schedule s) :
    collected s = (s.workers.map fun w => w.item.path).filter fun path => !ldd.inDest path := by
  rw [← List.filterMap_eq_filter, List.filterMap_map]
  refine List.filterMap_congr fun w hw => ?_
  obtain ⟨out, hout, hworked⟩ := h.worked hw
  have hcalm := h.calm w hw
  rw [hout] at hcalm ⊢
  generalize visible w.log = es at hworked
  cases hworked with
  | skipped hdest => simp [outOf, Out.path?, hdest, Option.guard]
  | failed hdest _ => simp [outOf, Out.path?, hdest, Option.guard]
  | panicked _ _ => exact absurd rfl hcalm
  | searched hdest _ _ => simp [outOf, Out.path?, hdest, Option.guard]

theorem mem_collected (h : ldd.Ran files args schedule s) {path : OsString} :
    path ∈ collected s ↔ Taken s path ∧ ldd.inDest path = false := by
  rw [h.collected_eq, List.mem_filter, List.mem_map, Bool.not_eq_true']
  rfl

/-- Everything was taken, and no worker is still at work or has panicked. -/
def ended (s : ldd.State) : Bool :=
  s.queue.isEmpty && s.workers.all fun w =>
    match outOf w.prog with
    | none => false
    | some .panicked => false
    | some _ => true

theorem of_ended (hargs : files.mapM ldd.fs.canonicalizeDir = some args)
    (hrun : WorkList.run ldd.system (ldd.start args) schedule = some s) (hend : ended s = true) :
    ldd.Ran files args schedule s := by
  obtain ⟨hqueue, hworkers⟩ := Bool.and_eq_true_iff.mp hend
  have hout (w) (hw : w ∈ s.workers) : ∃ out, w.prog = .done out ∧ out ≠ .panicked := by
    have h := List.all_eq_true.mp hworkers w hw
    cases hp : w.prog with
    | done out =>
        refine ⟨out, rfl, ?_⟩
        rintro rfl
        simp [hp, outOf] at h
    | call op next => simp [hp, outOf] at h
  refine ⟨⟨hargs, hrun, List.isEmpty_iff.mp hqueue, ?_⟩, ?_⟩
  · intro w hw
    obtain ⟨out, hp, _⟩ := hout w hw
    exact ⟨out, hp⟩
  · intro w hw
    obtain ⟨out, hp, hne⟩ := hout w hw
    rw [hp]
    exact fun h => hne (Option.some.inj h)

/-- A run of a given schedule, with something to see in its last state. -/
theorem exists_of_ended (schedule : List (Choice Iter)) (p : ldd.State → Bool)
    (hargs : files.mapM ldd.fs.canonicalizeDir = some args)
    (h : (WorkList.run ldd.system (ldd.start args) schedule).any
      (fun s => ended s && p s) = true) :
    ∃ s, ldd.Ran files args schedule s ∧ p s = true := by
  obtain ⟨s, hrun, hs⟩ := (Option.any_eq_true _ _).mp h
  obtain ⟨hend, hp⟩ := Bool.and_eq_true_iff.mp hs
  exact ⟨s, of_ended hargs hrun hend, hp⟩

end Ran

end Run

end Ldd

/-- An order that is known for some sets. -/
noncomputable def Ldd.Iter.ofLists (lists : List (List OsString)) (h : ∀ l ∈ lists, l.Nodup) :
    Ldd.Iter :=
  ⟨fun s => (lists.find? fun l => l.toFinset = s).getD s.toList, by
    intro s
    beta_reduce
    cases hl : lists.find? fun l => l.toFinset = s with
    | none => exact ⟨s.nodup_toList, fun x => Finset.mem_toList⟩
    | some l =>
        have hs : l.toFinset = s := by simpa using List.find?_some hl
        refine ⟨h l (List.mem_of_find?_eq_some hl), fun x => ?_⟩
        rw [Option.getD_some, ← List.mem_toFinset, hs]⟩

/-! ## File systems without links -/

/-- The directories and the files of a tree without symbolic links, under the
paths they have from the root on. -/
def FileSystem.plain (dirs : List (List OsString)) (files : List (OsString × List UInt8))
    (hdirs : ∀ names ∈ dirs, ∀ name ∈ names, EntryName name)
    (hfiles : ∀ file ∈ files, parent file.1 ≠ none) : FileSystem where
  pathExists p := decide (p ∈ dirs.map absolute) || (files.lookup p).isSome
  canonicalize p := if p ∈ dirs.map absolute then some p else none
  openFile p :=
    match files.lookup p with
    | some bytes => .ok (.file bytes)
    | none => if p ∈ dirs.map absolute then .ok .directory else .error .notFound
  canonicalize_canonical := by
    intro p c h
    split at h
    · rename_i hp
      obtain ⟨names, hnames, rfl⟩ := List.mem_map.mp hp
      cases h
      exact ⟨names, hdirs names hnames, rfl⟩
    · cases h
  canonicalize_idem := by
    intro p c h
    split at h
    · rename_i hp
      cases h
      exact if_pos hp
    · cases h
  openFile_parent := by
    intro p bytes h
    split at h
    · rename_i found hfound
      obtain ⟨before, after, heq, _⟩ := List.lookup_eq_some_iff.mp hfound
      exact hfiles (p, found) (heq ▸ List.mem_append_right _ List.mem_cons_self)
    · split at h <;> cases h

theorem FileSystem.plain_pathExists {dirs : List (List OsString)}
    {files : List (OsString × List UInt8)} (hdirs : ∀ names ∈ dirs, ∀ name ∈ names, EntryName name)
    (hfiles : ∀ file ∈ files, parent file.1 ≠ none) {p : OsString} :
    (FileSystem.plain dirs files hdirs hfiles).pathExists p = true ↔
      p ∈ dirs.map absolute ++ files.map Prod.fst := by
  show (decide (p ∈ dirs.map absolute) || (files.lookup p).isSome) = true ↔ _
  rw [Bool.or_eq_true_iff, decide_eq_true_iff, List.mem_append, List.mem_map (f := Prod.fst)]
  refine or_congr Iff.rfl (List.lookup_isSome_iff.trans ?_)
  exact exists_congr fun file => and_congr_right fun _ => beq_iff_eq.trans eq_comm

end Elfkit
end DracutInstall

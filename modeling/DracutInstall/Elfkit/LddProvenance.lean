/-
Where the items of the work list of `ldd` come from, and how many there are.

A path goes on the queue right after the call that put it into `visited`.  So it
goes there once, it is no argument, and it is a file that a taken object needs;
and since each new item uses up an existing path, the list is finite.
-/
import Mathlib.Data.Finset.Card
import Mathlib.Data.List.Flatten
import Mathlib.Logic.Relation
import DracutInstall.Elfkit.LddClosure

namespace DracutInstall
namespace Elfkit

open ByteCodec Rust UnixPath WorkList

instance nonempty_res {fs : FileSystem} (op : Op fs) : Nonempty (Res fs op) := by
  cases op with
  | canonGet path => exact ⟨none⟩
  | canonPut path val => exact ⟨()⟩
  | insert stage path => exact ⟨true⟩
  | enqueue item => exact ⟨()⟩

namespace Ldd

variable {ldd : Ldd}

/-- An object needs an item: the item has a path under which a name of the object
can be found, and the directories of the object. -/
def DependsOn (ldd : Ldd) (obj item : Item) : Prop :=
  ∃ sc dep c, ldd.fs.scan obj.path obj.lpaths = .ok sc ∧ dep ∈ sc.deps ∧
    Candidate ldd sc.lpaths dep c ∧ item = ⟨ldd.fs.spelling c, sc.lpaths⟩

/-! ## Insertions and the queue in one worker's calls -/

/-- Every item was put on the queue right after its path was new to `visited`. -/
inductive Paired (p : Item → Prop) : Calls ldd.fs → Prop
  | nil : Paired p []
  | probed (stage : Stage) (path : OsString) (new : Bool) {es : Calls ldd.fs} :
      Paired p es → Paired p (tried stage path new :: es)
  | found (stage : Stage) (item : Item) {es : Calls ldd.fs} :
      p item → Paired p es → Paired p (tried stage item.path true :: queued item :: es)

section Worker

variable {p q : Item → Prop} {es es' : Calls ldd.fs}

theorem Paired.mono (h : Paired p es) (hpq : ∀ item, p item → q item) : Paired q es := by
  induction h with
  | nil => exact .nil
  | probed stage path new _ ih => exact .probed stage path new ih
  | found stage item hp _ ih => exact .found stage item (hpq item hp) ih

theorem Paired.append (h : Paired p es) (h' : Paired p es') : Paired p (es ++ es') := by
  induction h with
  | nil => exact h'
  | probed stage path new _ ih => exact .probed stage path new ih
  | found stage item hp _ ih => exact .found stage item hp ih

theorem Paired.of_prefix (h : Paired p es) (hpre : es' <+: es) : Paired p es' := by
  induction h generalizing es' with
  | nil =>
      rw [List.prefix_nil.mp hpre]
      exact .nil
  | probed stage path new _ ih =>
      rcases List.prefix_cons_iff.mp hpre with rfl | ⟨t, rfl, ht⟩
      · exact .nil
      · exact .probed stage path new (ih ht)
  | found stage item hp _ ih =>
      rcases List.prefix_cons_iff.mp hpre with rfl | ⟨t, rfl, ht⟩
      · exact .nil
      · rcases List.prefix_cons_iff.mp ht with rfl | ⟨t', rfl, ht'⟩
        · exact .probed stage item.path true .nil
        · exact .found stage item hp (ih ht')

theorem Paired.of_queued (h : Paired p es) {item : Item} (hmem : queued item ∈ es) :
    p item ∧ ∃ stage, tried stage item.path true ∈ es := by
  have htried (stage : Stage) (path : OsString) (new : Bool) :
      (queued item : Event (Op ldd.fs) (Res ldd.fs)) ≠ tried stage path new :=
    fun heq => nomatch congrArg Event.op heq
  induction h with
  | nil => cases hmem
  | probed stage path new _ ih =>
      rcases List.mem_cons.mp hmem with heq | hmem
      · exact absurd heq (htried _ _ _)
      · obtain ⟨hp, stage', hin⟩ := ih hmem
        exact ⟨hp, stage', List.mem_cons_of_mem _ hin⟩
  | found stage item' hp _ ih =>
      rcases List.mem_cons.mp hmem with heq | hmem
      · exact absurd heq (htried _ _ _)
      · rcases List.mem_cons.mp hmem with heq | hmem
        · obtain rfl : item = item' := Op.enqueue.inj (congrArg Event.op heq)
          exact ⟨hp, stage, List.mem_cons_self⟩
        · obtain ⟨hp, stage', hin⟩ := ih hmem
          exact ⟨hp, stage', List.mem_cons_of_mem _ (List.mem_cons_of_mem _ hin)⟩

theorem Paired.queuedPaths_sublist (h : Paired p es) : (queuedPaths es).Sublist (fresh es) := by
  induction h with
  | nil => exact List.Sublist.slnil
  | probed stage path new _ ih =>
      rw [queuedPaths_tried, fresh_tried]
      split
      · exact ih.cons _
      · exact ih
  | found stage item _ _ ih =>
      rw [queuedPaths_tried, queuedPaths_queued, fresh_tried, if_pos rfl, fresh_queued]
      exact ih.cons_cons _

variable {dirs : List OsString} {lpaths : Finset OsString}

/-- The items of a loop are among its candidates. -/
def Among (ldd : Ldd) (lpaths : Finset OsString) (js : List OsString) (item : Item) : Prop :=
  item.path ∈ js ∧ item.lpaths = lpaths ∧ ldd.installable item.path = true

theorem Among.cons {j : OsString} {js : List OsString} {item : Item}
    (h : Among ldd lpaths js item) : Among ldd lpaths (j :: js) item :=
  ⟨List.mem_cons_of_mem _ h.1, h.2⟩

theorem Probed.paired {js : List OsString} {b : Bool} (h : Probed ldd lpaths js es b) :
    Paired (Among ldd lpaths js) es := by
  induction h with
  | exhausted => exact .nil
  | hit j js => exact .probed .directory j false .nil
  | found j js hinst => exact .found .directory ⟨j, lpaths⟩ ⟨List.mem_cons_self, rfl, hinst⟩ .nil
  | missed j _ _ ih => exact .probed .directory j true (ih.mono fun _ => Among.cons)

theorem ProbedListed.paired {js : List OsString} (h : ProbedListed ldd lpaths js es) :
    Paired (Among ldd lpaths js) es := by
  induction h with
  | nil => exact .nil
  | hit j _ ih => exact .probed .cache j false (ih.mono fun _ => Among.cons)
  | found j hinst _ ih =>
      exact .found .cache ⟨j, lpaths⟩ ⟨List.mem_cons_self, rfl, hinst⟩ (ih.mono fun _ => Among.cons)
  | missed j _ _ ih => exact .probed .cache j true (ih.mono fun _ => Among.cons)

/-- An item that was found for a name. -/
def FoundFor (ldd : Ldd) (lpaths : Finset OsString) (dep : OsString) (item : Item) : Prop :=
  (∃ c, Candidate ldd lpaths dep c ∧ item = ⟨ldd.fs.spelling c, lpaths⟩) ∧
    ldd.installable item.path = true

theorem foundFor_of_among {candidates : List OsString} {f : OsString → OsString} {dep : OsString}
    {item : Item} (hc : ∀ x ∈ candidates, Candidate ldd lpaths dep (f x))
    (h : Among ldd lpaths (candidates.map (ldd.fs.spelling ∘ f)) item) :
    FoundFor ldd lpaths dep item := by
  obtain ⟨hmem, hlpaths, hinst⟩ := h
  obtain ⟨x, hx, hpath⟩ := List.mem_map.mp hmem
  refine ⟨⟨f x, hc x hx, ?_⟩, hinst⟩
  obtain ⟨path, lpaths'⟩ := item
  obtain rfl : lpaths' = lpaths := hlpaths
  obtain rfl : ldd.fs.spelling (f x) = path := hpath
  rfl

theorem Searched.paired {dep : OsString} {b : Bool} (hdirs : ∀ dir ∈ dirs, dir ∈ lpaths)
    (h : Searched ldd dirs lpaths dep es b) : Paired (FoundFor ldd lpaths dep) es := by
  have hin {es : Calls ldd.fs} {b : Bool}
      (h : Probed ldd lpaths (dirs.map (ldd.candidate dep)) es b) :
      Paired (FoundFor ldd lpaths dep) es :=
    h.paired.mono fun _ => foundFor_of_among fun dir hdir => .inDirs dir (hdirs dir hdir)
  cases h with
  | inDirs hprobed => exact hin hprobed
  | inCache hprobed hlisted hvals =>
      refine (hin hprobed).append (hvals.paired.mono fun _ => ?_)
      exact foundFor_of_among (f := id) fun f hf => .inCache _ f hlisted hf
  | inDefault hprobed _ hdefault =>
      refine (hin hprobed).append (hdefault.paired.mono fun _ => ?_)
      exact foundFor_of_among fun dir hdir => .inDefault dir hdir

theorem Resolved.paired {deps : List OsString} {r : Except RecurseError Unit}
    (hdirs : ∀ dir ∈ dirs, dir ∈ lpaths) (h : Resolved ldd dirs lpaths deps es r) :
    Paired (fun item => ∃ dep ∈ deps, FoundFor ldd lpaths dep item) es := by
  induction h with
  | nil => exact .nil
  | found dep hsearch _ ih =>
      refine Paired.append ?_ (ih.mono ?_)
      · exact (hsearch.paired hdirs).mono fun _ h => ⟨dep, List.mem_cons_self, h⟩
      · exact fun _ ⟨d, hd, h⟩ => ⟨d, List.mem_cons_of_mem _ hd, h⟩
  | missing dep deps hsearch =>
      exact (hsearch.paired hdirs).mono fun _ h => ⟨dep, List.mem_cons_self, h⟩

theorem Worked.paired {iter : Iter} {obj : Item} {out : Out} (h : Worked ldd iter obj es out) :
    Paired (fun item => ldd.DependsOn obj item ∧ ldd.installable item.path = true) es := by
  cases h with
  | skipped _ => exact .nil
  | failed _ _ => exact .nil
  | panicked _ _ => exact .nil
  | @searched sc _ _ _ hscan hres =>
      have hdirs : ∀ dir ∈ iter.val sc.lpaths, dir ∈ sc.lpaths := fun dir =>
        ((iter.property sc.lpaths).2 dir).mp
      refine (hres.paired hdirs).mono ?_
      rintro item ⟨dep, hdep, ⟨c, hc, hitem⟩, hinst⟩
      exact ⟨⟨sc, dep, c, hscan, hdep, hc, hitem⟩, hinst⟩

end Worker

/-! ## Reachable states -/

/-- How `recurse` on an object, taken before, came to put an item on the queue:
the path of the item was put into `visited` where it had not been. -/
structure FoundBy (args : List OsString) (s : ldd.State) (obj item : Item) : Prop where
  taken : ∃ w ∈ s.workers, w.item = obj
  depends : ldd.DependsOn obj item
  pathExists : ldd.fs.pathExists item.path = true
  notInDest : ldd.fs.pathExists (ldd.destPath ++ item.path) = false
  inserted : ∃ stage before after shared,
    s.history = before ++ ⟨obj, tried stage item.path true⟩ :: after ∧
    Replay ldd.system (fun _ _ _ => True) { visited := args.toFinset, canonCache := ∅ } before
      shared ∧
    item.path ∉ shared.visited

/-- One step of a chain of dependencies, from an object that was taken. -/
def ChainStep (s : ldd.State) (obj item : Item) : Prop :=
  (∃ w ∈ s.workers, w.item = obj) ∧ ldd.DependsOn obj item

/-- The item is an argument or linked to one by a chain of dependencies. -/
def Linked (args : List OsString) (s : ldd.State) (item : Item) : Prop :=
  ∃ arg ∈ args, Relation.ReflTransGen (ChainStep s) ⟨arg, ∅⟩ item

section Reached

variable {files args : List OsString} {schedule : List (Choice Iter)} {s : ldd.State}

/-- What a worker has done so far is the start of what a worker on its item does. -/
theorem Reached.worked (h : ldd.Reached files args schedule s)
    {w : Worker (Op ldd.fs) (Res ldd.fs) Item Iter Out} (hw : w ∈ s.workers) :
    ∃ es out, Worked ldd w.hint w.item es out ∧ visible w.log <+: es ∧
      ∀ a, w.prog = .done a → a = out := by
  have htrace := (h.account (meets_true _ _)).traces w hw
  cases hp : w.prog with
  | done a =>
      rw [hp] at htrace
      exact ⟨_, a, runs_work htrace, List.prefix_refl _, fun b hb => (Prog.done.inj hb).symm⟩
  | call op next =>
      obtain ⟨es, out, hruns⟩ := htrace.exists_runs
      have hworked := runs_work hruns
      rw [visible_append] at hworked
      exact ⟨_, out, hworked, List.prefix_append _ _, fun a ha => nomatch ha⟩

theorem Reached.paired (h : ldd.Reached files args schedule s)
    {w : Worker (Op ldd.fs) (Res ldd.fs) Item Iter Out} (hw : w ∈ s.workers) :
    Paired (fun item => ldd.DependsOn w.item item ∧ ldd.installable item.path = true)
      (visible w.log) := by
  obtain ⟨es, out, hworked, hpre, _⟩ := h.worked hw
  exact hworked.paired.of_prefix hpre

theorem mem_visible_queued {es : Calls ldd.fs} {item : Item} (h : queued item ∈ es) :
    queued item ∈ visible es := List.mem_filter.mpr ⟨h, rfl⟩

theorem Reached.foundBy (h : ldd.Reached files args schedule s)
    {w : Worker (Op ldd.fs) (Res ldd.fs) Item Iter Out} (hw : w ∈ s.workers) {item : Item}
    (hitem : queued item ∈ w.log) : FoundBy args s w.item item := by
  have hacc := h.account (meets_true _ _)
  obtain ⟨⟨hdepends, hinst⟩, stage, htried⟩ :=
    (h.paired hw).of_queued (mem_visible_queued hitem)
  rw [installable, Bool.and_eq_true_iff, Bool.not_eq_true'] at hinst
  have hhist := hacc.recorded hw (visible_subset _ htried)
  obtain ⟨before, after, hsplit⟩ := List.append_of_mem hhist
  have hreplay := hacc.replay
  rw [hsplit] at hreplay
  obtain ⟨shared, hbefore, hres⟩ := hreplay.split
  refine ⟨⟨w, hw, rfl⟩, hdepends, hinst.1, hinst.2, stage, before, after, shared, hsplit, hbefore,
    ?_⟩
  have hnew : true = decide (item.path ∉ shared.visited) := hres
  simpa using hnew.symm

/-- The paths that workers put on the queue are all different, and no arguments. -/
theorem Reached.enqueued_nodup (h : ldd.Reached files args schedule s) :
    ((enqueued ldd.system s.history).map Item.path).Nodup ∧
    ∀ path ∈ (enqueued ldd.system s.history).map Item.path, path ∉ args := by
  have hacc := h.account (meets_true _ _)
  obtain ⟨hnodup, hnew, _⟩ := replay_fresh hacc.replay
  have henq : (enqueued ldd.system s.history).map Item.path =
      queuedPaths (s.history.map Entry.event) := by
    rw [enqueued, List.map_filterMap, queuedPaths, List.filterMap_map]
    rfl
  have hentries := entries_perm hacc
  have hlogs : (queuedPaths (s.workers.flatMap fun w => w.log)).Sublist
      (fresh (s.workers.flatMap fun w => w.log)) := by
    rw [queuedPaths, fresh, List.filterMap_flatMap, List.filterMap_flatMap]
    refine List.Sublist.flatMap_right _ fun w hw => ?_
    have hsub := (h.paired hw).queuedPaths_sublist
    rwa [queuedPaths_visible, fresh_visible] at hsub
  have hfresh : (fresh (s.workers.flatMap fun w => w.log)).Perm (freshIn s.history) :=
    (hentries.filterMap _).symm
  have hqueued : (queuedPaths (s.history.map Entry.event)).Perm
      (queuedPaths (s.workers.flatMap fun w => w.log)) := hentries.filterMap _
  rw [henq]
  refine ⟨hqueued.nodup_iff.mpr (hlogs.nodup (hfresh.nodup_iff.mpr hnodup)), ?_⟩
  intro path hpath harg
  have hmem := hfresh.mem_iff.mp (hlogs.subset (hqueued.mem_iff.mp hpath))
  exact hnew path hmem (List.mem_toFinset.mpr harg)

theorem Reached.linked (h : ldd.Reached files args schedule s) :
    ∀ item ∈ s.queue ++ s.workers.map Worker.item, Linked args s item := by
  refine h.item_induction (fun path hpath => ⟨path, hpath, .refl⟩) ?_
  rintro w hw ⟨arg, harg, hchain⟩ item hitem
  have hfound := h.foundBy hw hitem
  exact ⟨arg, harg, hchain.tail ⟨hfound.taken, hfound.depends⟩⟩

/-- The path a worker returns is that of its item. -/
theorem Reached.of_collected (h : ldd.Reached files args schedule s) {path : OsString}
    (hpath : path ∈ collected s) : ∃ w ∈ s.workers, w.item.path = path := by
  obtain ⟨w, hw, hout⟩ := List.mem_filterMap.mp hpath
  obtain ⟨es, out, hworked, _, hdone⟩ := h.worked hw
  refine ⟨w, hw, ?_⟩
  cases hp : w.prog with
  | call op next =>
      rw [hp] at hout
      cases hout
  | done a =>
      obtain rfl := hdone a hp
      rw [hp] at hout
      change a.path? = some path at hout
      cases hworked with
      | skipped _ => cases hout
      | failed _ _ => exact Option.some.inj hout
      | panicked _ _ => cases hout
      | searched _ _ _ => exact Option.some.inj hout

/-- What workers put on the queue was found by an object that needs it. -/
theorem Reached.enqueued_found (h : ldd.Reached files args schedule s) :
    ∀ item ∈ enqueued ldd.system s.history, ∃ obj, FoundBy args s obj item := by
  intro item hitem
  obtain ⟨e, he, henq⟩ := List.mem_filterMap.mp hitem
  obtain ⟨w, hw, _, hev⟩ := (h.account (meets_true _ _)).logged he
  exact ⟨w.item, h.foundBy hw (eq_queued henq ▸ hev)⟩

/-- In every reachable state: what was ever on the queue is in `visited`; what
workers put there is there once and is no argument, and was found by a taken
object that needs it; and what is returned is linked to an argument. -/
theorem ldd_provenance (h : ldd.Reached files args schedule s) :
    (∀ path ∈ args ++ (enqueued ldd.system s.history).map Item.path,
      path ∈ s.shared.visited) ∧
    ((enqueued ldd.system s.history).map Item.path).Nodup ∧
    (∀ path ∈ (enqueued ldd.system s.history).map Item.path, path ∉ args) ∧
    (∀ item ∈ enqueued ldd.system s.history, ∃ obj, FoundBy args s obj item) ∧
    ∀ path ∈ collected s, ∃ item, item.path = path ∧ Linked args s item := by
  have hacc := h.account (meets_true _ _)
  obtain ⟨hnodup, hargs⟩ := h.enqueued_nodup
  refine ⟨fun path hpath => ?_, hnodup, hargs, h.enqueued_found, fun path hpath => ?_⟩
  · obtain ⟨_, _, hvisited⟩ := replay_fresh hacc.replay
    rw [hvisited]
    rcases List.mem_append.mp hpath with harg | hqueued
    · exact .inl (List.mem_toFinset.mpr harg)
    · obtain ⟨item, hitem, rfl⟩ := List.mem_map.mp hqueued
      obtain ⟨obj, hobj⟩ := h.enqueued_found item hitem
      obtain ⟨stage, before, after, _, hsplit, _⟩ := hobj.inserted
      refine .inr (mem_fresh.mpr ⟨stage, List.mem_map.mpr ⟨⟨obj, _⟩, ?_, rfl⟩⟩)
      rw [hsplit]
      exact List.mem_append_right _ List.mem_cons_self
  · obtain ⟨w, hw, rfl⟩ := h.of_collected hpath
    exact ⟨w.item, rfl,
      h.linked w.item (List.mem_append_right _ (List.mem_map_of_mem hw))⟩

theorem length_of_mapM {α β : Type} {f : α → Option β} {l : List α} {r : List β}
    (h : l.mapM f = some r) : r.length = l.length := by
  induction l generalizing r with
  | nil =>
      obtain rfl : [] = r := by simpa using h
      rfl
  | cons a l ih =>
      rw [List.mapM_cons] at h
      simp only [Option.bind_eq_bind, Option.bind_eq_some_iff, Option.pure_def,
        Option.some.injEq] at h
      obtain ⟨b, _, bs, hbs, rfl⟩ := h
      rw [List.length_cons, List.length_cons, ih hbs]

/-- Where finitely many paths exist, the items that are or were on the queue are at
most as many as the arguments and the existing paths that are no arguments. -/
theorem ldd_items_le (h : ldd.Reached files args schedule s) (existing : Finset OsString)
    (hexisting : ∀ path, path ∈ existing ↔ ldd.fs.pathExists path = true) :
    s.workers.length + s.queue.length ≤ files.length + (existing \ args.toFinset).card := by
  have hacc := h.account (meets_true _ _)
  obtain ⟨hnodup, hargs⟩ := h.enqueued_nodup
  have hfound := h.enqueued_found
  have hitems := hacc.items.length_eq
  rw [List.length_append, List.length_append, List.length_map, List.length_map,
    length_of_mapM h.canonical] at hitems
  have hsub : ((enqueued ldd.system s.history).map Item.path).toFinset ⊆
      existing \ args.toFinset := by
    intro path hpath
    have hpath := List.mem_toFinset.mp hpath
    obtain ⟨item, hitem, rfl⟩ := List.mem_map.mp hpath
    obtain ⟨obj, hobj⟩ := hfound item hitem
    rw [Finset.mem_sdiff, hexisting, List.mem_toFinset]
    exact ⟨hobj.pathExists, hargs _ hpath⟩
  have hcard := Finset.card_le_card hsub
  rw [List.toFinset_card_of_nodup hnodup, List.length_map] at hcard
  omega

end Reached

end Ldd

namespace Sample

theorem somewhere_provenance :
    ∃ schedule s, somewhere.Reached args args schedule s ∧
      ∀ path ∈ Ldd.collected s, ∃ item, item.path = path ∧ Ldd.Linked args s item := by
  obtain ⟨s, hran, _⟩ := Ldd.Ran.exists_of_ended
    [.take 0 iter, .run 0, .run 0, .run 0, .run 0, .take 0 iter, .run 1, .run 1, .take 0 iter]
    (fun _ : somewhere.State => true)
    (show args.mapM somewhere.fs.canonicalizeDir = some args by decide +kernel) (by decide +kernel)
  exact ⟨_, s, hran.reached, (Ldd.ldd_provenance hran.reached).2.2.2.2⟩

/-- The three directories, the two objects and the library. -/
def somewhereExisting : Finset OsString :=
  [ascii "/", ascii "/lib64", ascii "/lib64/dyninst", ascii "/a", ascii "/b",
    ascii "/lib64/dyninst/x"].toFinset

theorem mem_somewhereExisting (path : OsString) :
    path ∈ somewhereExisting ↔ somewhere.fs.pathExists path = true := by
  have hplain : somewhere.fs.pathExists path = true ↔ _ :=
    FileSystem.plain_pathExists (by decide) (by decide)
  rw [hplain, somewhereExisting, List.mem_toFinset]
  exact Iff.of_eq (congrArg (path ∈ ·) (by decide +kernel))

theorem somewhere_items_le :
    ∃ schedule s, somewhere.Reached args args schedule s ∧
      s.workers.length + s.queue.length ≤ 6 := by
  obtain ⟨s, hran, _⟩ := Ldd.Ran.exists_of_ended
    [.take 0 iter, .run 0, .run 0, .run 0, .run 0, .take 0 iter, .run 1, .run 1, .take 0 iter]
    (fun _ : somewhere.State => true)
    (show args.mapM somewhere.fs.canonicalizeDir = some args by decide +kernel) (by decide +kernel)
  refine ⟨_, s, hran.reached, Nat.le_trans
    (Ldd.ldd_items_le hran.reached somewhereExisting mem_somewhereExisting) ?_⟩
  decide +kernel

end Sample
end Elfkit
end DracutInstall

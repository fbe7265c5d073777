/-
No two results of `ldd` name the same entry of the same real directory, for
arguments that do not and for candidates whose directory could be resolved.

Every path goes on the queue by the call that put it into `visited`, except for
the arguments: what the insertion of an argument answers is not looked at.  And
one path is one entry only where `canonicalize_dir` gave the path its spelling.
-/
import DracutInstall.Elfkit.LddClosure

namespace DracutInstall
namespace Elfkit

open ByteCodec Rust UnixPath WorkList

/-! ## Entries of directories -/

/-- The real directory of a path, and its entry there.  The directory of a bare
name is the current one. -/
def FileSystem.entry (fs : FileSystem) (path : OsString) : Option (OsString × OsString) := do
  let name ← fileName path
  let dir ← parent path
  let real ← fs.canonicalize (if dir = [] then dot else dir)
  pure (real, name)

def FileSystem.SameEntry (fs : FileSystem) (p q : OsString) : Prop :=
  ∃ e, fs.entry p = some e ∧ fs.entry q = some e

/-- `canonicalize_dir` gives the path back. -/
def FileSystem.Settled (fs : FileSystem) (p : OsString) : Prop := fs.canonicalizeDir p = some p

instance (fs : FileSystem) (p : OsString) : Decidable (fs.Settled p) :=
  inferInstanceAs (Decidable (_ = _))

section Entries

variable {fs : FileSystem} {p q : OsString}

theorem FileSystem.canonicalizeDir_eq_some (h : fs.canonicalizeDir p = some q) :
    ∃ names name, (∀ n ∈ names, EntryName n) ∧ EntryName name ∧
      q = absolute (names ++ [name]) ∧
      fs.canonicalize (absolute names) = some (absolute names) := by
  simp only [canonicalizeDir, Option.bind_eq_bind, Option.bind_eq_some_iff, Option.pure_def,
    Option.some.injEq] at h
  obtain ⟨name, hname, dir, _, canon, hcanon, rfl⟩ := h
  have hentry := entryName_of_fileName hname
  obtain ⟨names, hnames, rfl⟩ := fs.canonicalize_canonical _ _ hcanon
  exact ⟨names, name, hnames, hentry, push_absolute hnames hentry,
    fs.canonicalize_idem _ _ hcanon⟩

/-- A canonical spelling is settled. -/
theorem FileSystem.settled_of_canonicalizeDir (h : fs.canonicalizeDir p = some q) :
    fs.Settled q := by
  obtain ⟨names, name, hnames, hname, rfl, hcanon⟩ := canonicalizeDir_eq_some h
  simp only [Settled, canonicalizeDir, fileName_absolute hnames hname,
    parent_absolute hnames hname, Option.bind_eq_bind, Option.bind_some, hcanon, Option.pure_def,
    push_absolute hnames hname]

theorem FileSystem.Settled.entry (h : fs.Settled p) :
    ∃ dir name, fs.entry p = some (dir, name) ∧ p = push dir name := by
  obtain ⟨names, name, hnames, hname, rfl, hcanon⟩ := canonicalizeDir_eq_some h
  refine ⟨absolute names, name, ?_, (push_absolute hnames hname).symm⟩
  have hne : absolute names ≠ [] := List.cons_ne_nil _ _
  simp only [FileSystem.entry, fileName_absolute hnames hname, parent_absolute hnames hname,
    Option.bind_eq_bind, Option.bind_some, if_neg hne, hcanon, Option.pure_def]

/-- Settled paths are the same entry only when they are the same path. -/
theorem FileSystem.Settled.sameEntry_iff (hp : fs.Settled p) (hq : fs.Settled q) :
    fs.SameEntry p q ↔ p = q := by
  obtain ⟨dir, name, hentry, hpush⟩ := hp.entry
  constructor
  · rintro ⟨e, hpe, hqe⟩
    obtain ⟨dir', name', hentry', hpush'⟩ := hq.entry
    obtain rfl : (dir, name) = e := Option.some.inj (hentry.symm.trans hpe)
    obtain ⟨rfl, rfl⟩ : dir' = dir ∧ name' = name :=
      Prod.mk.inj (Option.some.inj (hentry'.symm.trans hqe))
    rw [hpush, hpush']
  · rintro rfl
    exact ⟨_, hentry, hentry⟩

end Entries

namespace Ldd

variable {ldd : Ldd}

/-- A path that a call puts into `visited`, and that can be installed, is settled. -/
def SettledInserts (ldd : Ldd) (shared : Shared ldd.fs) (_ : Item) : Op ldd.fs → Prop
  | .insert _ path =>
      path ∉ shared.visited → ldd.installable path = true → ldd.fs.Settled path
  | _ => True

instance (shared : Shared ldd.fs) (item : Item) (op : Op ldd.fs) :
    Decidable (ldd.SettledInserts shared item op) :=
  match op with
  | .insert _ path =>
      inferInstanceAs (Decidable
        (path ∉ shared.visited → ldd.installable path = true → ldd.fs.Settled path))
  | .canonGet _ => isTrue trivial
  | .canonPut _ _ => isTrue trivial
  | .enqueue _ => isTrue trivial

theorem replay_settled {shared₀ shared : Shared ldd.fs}
    {hs : List (Entry (Op ldd.fs) (Res ldd.fs) Item)}
    (h : Replay ldd.system ldd.SettledInserts shared₀ hs shared) {path : OsString}
    (hfresh : path ∈ freshIn hs) (hinst : ldd.installable path = true) : ldd.fs.Settled path := by
  induction h with
  | nil => cases hfresh
  | @snoc hs shared item op _ hcond ih =>
      change path ∈ freshIn (hs ++ [⟨item, ⟨op, (exec op shared).1⟩⟩]) at hfresh
      rw [freshIn_snoc] at hfresh
      rcases List.mem_append.mp hfresh with hfresh | hlast
      · exact ih hfresh
      · have hpath := Option.mem_toList.mp hlast
        have hout := freshPath_exec hpath
        cases op with
        | canonGet p => cases hpath
        | canonPut p val => cases hpath
        | enqueue item => cases hpath
        | insert stage p =>
            obtain ⟨_, hp⟩ : _ ∧ p = path := by
              simpa [freshPath, exec] using hpath
            rw [hp] at hcond
            exact hcond hout hinst

section Run

variable {files args : List OsString} {schedule : List (Choice Iter)} {s : ldd.State}
  {res : List OsString}

/-- Once more without the paths that are below `dest_path`. -/
theorem Ran.collected_perm (h : ldd.Ran files args schedule s) :
    (collected s).Perm ((args.filter fun path => !ldd.inDest path) ++
      (freshIn s.history).filter ldd.installable) := by
  rw [h.collected_eq]
  refine (h.taken_perm.filter _).trans (List.Perm.of_eq ?_)
  rw [List.filter_append, List.filter_filter]
  congr 1
  refine List.filter_congr fun path _ => ?_
  cases hdest : ldd.inDest path <;> simp [installable, hdest]

/-- What is found on the way comes once, and is no argument. -/
theorem Ran.collected_nodup (h : ldd.Ran files args schedule s) :
    (collected s).Nodup ↔ (args.filter fun path => !ldd.inDest path).Nodup := by
  obtain ⟨hnodup, hnew, _⟩ := replay_fresh (h.account (meets_true _ _)).replay
  rw [h.collected_perm.nodup_iff, List.nodup_append]
  constructor
  · exact fun h => h.1
  · intro hargs
    refine ⟨hargs, hnodup.filter _, ?_⟩
    rintro a ha b hb rfl
    exact hnew a (List.mem_filter.mp hb).1 (List.mem_toFinset.mpr (List.mem_filter.mp ha).1)

theorem exists_of_mem_mapM {α β : Type} {f : α → Option β} {l : List α} {r : List β}
    (h : l.mapM f = some r) {b : β} (hb : b ∈ r) : ∃ a ∈ l, f a = some b := by
  induction l generalizing r with
  | nil =>
      obtain rfl : [] = r := by simpa using h
      cases hb
  | cons a l ih =>
      rw [List.mapM_cons] at h
      simp only [Option.bind_eq_bind, Option.bind_eq_some_iff, Option.pure_def,
        Option.some.injEq] at h
      obtain ⟨c, hc, cs, hcs, rfl⟩ := h
      rcases List.mem_cons.mp hb with rfl | hb
      · exact ⟨a, List.mem_cons_self, hc⟩
      · obtain ⟨a', ha', hf⟩ := ih hcs hb
        exact ⟨a', List.mem_cons_of_mem _ ha', hf⟩

theorem Finished.args_settled (h : ldd.Finished files args schedule s) :
    ∀ path ∈ args, ldd.fs.Settled path := by
  intro path hpath
  obtain ⟨file, _, hcanon⟩ := exists_of_mem_mapM h.canonical hpath
  exact FileSystem.settled_of_canonicalizeDir hcanon

/-- In a run whose new candidates have a canonical directory, the results are
different entries if and only if the arguments that are not below `dest_path`
are different paths. -/
theorem ldd_unique (h : ldd.Ran files args schedule s) (hres : res.Perm (collected s))
    (hsettled : Meets ldd.system ldd.SettledInserts (ldd.start args) schedule) :
    res.Pairwise (fun p q => ¬ ldd.fs.SameEntry p q) ↔
      (args.filter fun path => !ldd.inDest path).Nodup := by
  have hall : ∀ path ∈ res, ldd.fs.Settled path := by
    intro path hpath
    have hmem := h.collected_perm.mem_iff.mp (hres.mem_iff.mp hpath)
    rcases List.mem_append.mp hmem with hmem | hmem
    · exact h.args_settled path (List.mem_filter.mp hmem).1
    · obtain ⟨hfresh, hinst⟩ := List.mem_filter.mp hmem
      exact replay_settled (h.account hsettled).replay hfresh hinst
  rw [← h.collected_nodup, ← hres.nodup_iff, List.Nodup]
  exact List.Pairwise.iff_of_mem fun hp hq =>
    not_congr ((hall _ hp).sameEntry_iff (hall _ hq))

end Run

end Ldd

namespace Sample

/-- An argument given twice is returned twice. -/
theorem somewhere_repeated :
    ∃ files args schedule s, somewhere.Ran files args schedule s ∧
      ¬ (Ldd.collected s).Pairwise fun p q => ¬ somewhere.fs.SameEntry p q := by
  obtain ⟨s, hran, hres⟩ := Ldd.Ran.exists_of_ended
    [.take 0 iter, .run 0, .run 0, .run 0, .run 0, .take 0 iter, .run 1, .run 1, .take 0 iter]
    (fun s : somewhere.State => decide (Ldd.collected s =
      [ascii "/a", ascii "/a", ascii "/lib64/dyninst/x"]))
    (show [ascii "/a", ascii "/a"].mapM somewhere.fs.canonicalizeDir =
      some [ascii "/a", ascii "/a"] by decide +kernel) (by decide +kernel)
  refine ⟨_, _, _, s, hran, fun hpairwise => ?_⟩
  rw [of_decide_eq_true hres] at hpairwise
  have hne := List.rel_of_pairwise_cons hpairwise List.mem_cons_self
  exact hne ⟨(ascii "/", ascii "a"), by decide +kernel, by decide +kernel⟩

theorem somewhere_unique :
    ∃ schedule s, somewhere.Ran args args schedule s ∧
      (Ldd.collected s).Pairwise fun p q => ¬ somewhere.fs.SameEntry p q := by
  obtain ⟨s, hran, _⟩ := Ldd.Ran.exists_of_ended
    [.take 0 iter, .run 0, .run 0, .run 0, .run 0, .take 0 iter, .run 1, .run 1, .take 0 iter]
    (fun _ : somewhere.State => true)
    (show args.mapM somewhere.fs.canonicalizeDir = some args by decide +kernel) (by decide +kernel)
  exact ⟨_, s, hran,
    (Ldd.ldd_unique hran (List.Perm.refl _) (by decide +kernel)).mpr (by decide +kernel)⟩

end Sample
end Elfkit
end DracutInstall

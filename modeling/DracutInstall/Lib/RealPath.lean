/-
The path of an entry from the root on, and the path `realpath` gives.

The names from the root on lead to their entry without a link on the way, so that a
real path is its own real path.
-/
import DracutInstall.Lib.LinkCount

namespace UnixPath

variable {names : List OsString}

theorem sep_not_mem_of_entryName (hnames : ∀ n ∈ names, EntryName n) : ∀ n ∈ names, sep ∉ n :=
  fun n hn => (hnames n hn).2.1

theorem body_absolute (hnames : ∀ n ∈ names, EntryName n) :
    body (absolute names) = names.map .normal := by
  rw [absolute, body_sep_cons, body_intercalate (sep_not_mem_of_entryName hnames)]
  induction names with
  | nil => rfl
  | cons name names ih =>
      rw [List.filterMap_cons_some (parseSegment_entryName (hnames name List.mem_cons_self)),
        List.map_cons, ih fun n hn => hnames n (List.mem_cons_of_mem _ hn)]

theorem endsBlank_absolute (hnames : ∀ n ∈ names, EntryName n) (hne : names ≠ []) :
    endsBlank (absolute names) = false := by
  have hblank : endsBlank ([sep].intercalate names) = false := by
    rw [endsBlank_intercalate (sep_not_mem_of_entryName hnames),
      List.getLast?_eq_some_getLast hne]
    exact (hnames _ (List.getLast_mem hne)).not_blank
  rw [← hblank]
  exact endsBlank_append_sep [] _

theorem steps_absolute (hnames : ∀ n ∈ names, EntryName n) :
    steps (absolute names) = if names = [] then [.curDir] else names.map .normal := by
  by_cases hnil : names = []
  · rw [hnil]
    rfl
  · rw [if_neg hnil, steps, body_absolute hnames, endsBlank_absolute hnames hnil,
      if_neg Bool.false_ne_true, List.append_nil]

end UnixPath

namespace FileTree
namespace Tree

open Rust UnixPath

variable {v : View} {t t' : Tree} {p q : OsString} {loc : Loc} {n : Node}

theorem entryNames (hn : t.node loc ≠ none) : ∀ name ∈ loc, EntryName name := by
  induction loc using List.reverseRecOn with
  | nil => exact fun name hname => nomatch hname
  | append_singleton dir name ih =>
      obtain ⟨mode, hdir⟩ := t.parent dir name hn
      have hfront := ih (by rw [hdir]; exact Option.some_ne_none _)
      intro x hx
      rcases List.mem_append.mp hx with hx | hx
      · exact hfront x hx
      · rw [List.mem_singleton.mp hx]
        exact t.entryName dir name hn

/-- The names of an entry lead to it, and no link is followed on the way. -/
theorem walksIn_names (hn : t.node loc = some n) (hlink : n.isLink = false) :
    WalksIn t 0 [] (loc.map .normal) loc := by
  induction loc using List.reverseRecOn generalizing n with
  | nil => exact .done []
  | append_singleton dir name ih =>
      obtain ⟨mode, hdir⟩ := t.parent dir name (by rw [hn]; exact Option.some_ne_none _)
      rw [List.map_append]
      exact (ih hdir rfl).append (.entry (isDir_iff.mpr ⟨mode, hdir⟩) hn hlink (.done _))

theorem start_absolute (v : View) (names : List OsString) : start v (absolute names) = [] :=
  if_pos (hasRoot_cons _)

theorem lookup_absolute (hn : t.node loc = some n) (hlink : n.isLink = false) :
    t.lookup v true false (absolute loc) = .ok loc := by
  have hnames : ∀ name ∈ loc, EntryName name := entryNames (by rw [hn]; exact Option.some_ne_none _)
  have hne : absolute loc ≠ [] := List.cons_ne_nil _ _
  rw [lookup, if_neg hne, start_absolute, steps_absolute hnames]
  split
  · rename_i hnil
    subst hnil
    exact (WalksIn.curDir (Walks.isDir_root t) (.done [])).walk (Nat.zero_le _)
  · exact (walksIn_names hn hlink).walk (Nat.zero_le _)

/-- `realpath` -/
def realPath (t : Tree) (v : View) (p : OsString) : Option OsString :=
  (t.lookup v true false p).toOption.map absolute

theorem realPath_eq_some {c : OsString} (h : t.realPath v p = some c) :
    ∃ loc n, t.lookup v true false p = .ok loc ∧ t.node loc = some n ∧ n.isLink = false ∧
      c = absolute loc := by
  rw [realPath, Option.map_eq_some_iff] at h
  obtain ⟨loc, hloc, rfl⟩ := h
  cases hl : t.lookup v true false p with
  | error e =>
      rw [hl] at hloc
      cases hloc
  | ok loc' =>
      rw [hl] at hloc
      obtain rfl : loc' = loc := Option.some.inj hloc
      have hwalk := lookup_ok hl
      obtain ⟨n, hn, hlink⟩ := hwalk.ends (hwalk.isDir_start (steps_ne_nil p))
      exact ⟨loc', n, rfl, hn, hlink, rfl⟩

theorem realPath_canonical {c : OsString} (h : t.realPath v p = some c) : Canonical c := by
  obtain ⟨loc, n, _, hn, _, rfl⟩ := realPath_eq_some h
  exact ⟨loc, entryNames (by rw [hn]; exact Option.some_ne_none _), rfl⟩

/-- A real path is its own real path. -/
theorem realPath_idem {c : OsString} (h : t.realPath v p = some c) : t.realPath v c = some c := by
  obtain ⟨loc, n, _, hn, hlink, rfl⟩ := realPath_eq_some h
  rw [realPath, lookup_absolute hn hlink]
  rfl

/-- What is no directory has a path with a name at its end, and so a parent. -/
theorem parent_ne_none_of_lookup {follow missing : Bool}
    (h : t.lookup v follow missing p = .ok loc) (hdir : t.isDir loc = false) :
    UnixPath.parent p ≠ none := by
  intro hparent
  have hwalk := lookup_ok h
  obtain ⟨pre, name, hsteps⟩ := hwalk.last_name (hwalk.isDir_start (steps_ne_nil p)) hdir
  have hmem : Component.normal name ∈ steps p := by
    rw [hsteps]
    exact List.mem_append_right _ List.mem_cons_self
  rw [steps, parent_eq_none hparent, List.nil_append] at hmem
  split at hmem
  · cases List.mem_singleton.mp hmem
  · cases hmem

end Tree
end FileTree

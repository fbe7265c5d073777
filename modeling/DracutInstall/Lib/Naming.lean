/-
The entry a path names, whether it is there or not.

A path is taken if its components lead to an entry, no matter what is at its end
otherwise.  It names the place of its last name in the directory that the
components in front of it lead to; among more entries it names the same place.
-/
import DracutInstall.Lib.LinkCount

namespace FileTree
namespace Tree

open UnixPath

variable {v : View} {t t' : Tree} {p q : OsString} {k : Nat} {cs : List Component} {c : Component}
  {mid loc : Loc}

/-- There is an entry at the path, maybe a link. -/
def Taken (v : View) (t : Tree) (p : OsString) : Prop :=
  ∃ loc n, t.walk false false v.limit (start v p) (body p) = .ok loc ∧ t.node loc = some n

theorem taken_iff : Taken v t p ↔
    ((t.walk false false v.limit (start v p) (body p)).toOption.bind t.node).isSome = true := by
  rw [Taken, Option.isSome_iff_exists]
  cases t.walk false false v.limit (start v p) (body p) with
  | error e => simp [Except.toOption]
  | ok loc => simp [Except.toOption]

instance (v : View) (t : Tree) (p : OsString) : Decidable (Taken v t p) :=
  decidable_of_iff _ taken_iff.symm

theorem Taken.congr (h : Taken v t p) (hstart : start v q = start v p) (hbody : body q = body p) :
    Taken v t q := by
  rw [Taken, hstart, hbody]
  exact h

theorem Taken.keepsKinds (hkeeps : KeepsKinds t t') (h : Taken v t p) : Taken v t' p := by
  obtain ⟨loc, n, hwalk, hn⟩ := h
  obtain ⟨n', hn', _⟩ := hkeeps loc n hn
  exact ⟨loc, n', walk_filled hkeeps (fun hmissing => by cases hmissing) hwalk, hn'⟩

/-- So is a path whose components lead somewhere. -/
theorem taken_of_walksIn (h : WalksIn t k (start v p) (body p) loc) (hk : k ≤ v.limit)
    (hstart : t.isDir (start v p) = true) : Taken v t p := by
  obtain ⟨n, hn, _⟩ := h.walks.ends hstart
  obtain ⟨loc', hwalk, rfl | ⟨text, hlink⟩⟩ := walk_unfollowed (h.walk hk)
  · exact ⟨loc', n, hwalk, hn⟩
  · exact ⟨loc', .link text, hwalk, hlink⟩

/-- What `lstat` or `stat` finds is there. -/
theorem taken_of_status {follow : Bool} {n : Node} (h : t.status v follow p = .ok n) :
    Taken v t p := by
  obtain ⟨n', hfound⟩ : ∃ n', t.status v false p = .ok n' := by
    cases follow with
    | false => exact ⟨n, h⟩
    | true => exact status_unfollowed h
  obtain ⟨loc, hloc, hn⟩ := status_lookup hfound
  have hstart := (lookup_ok hloc).isDir_start (steps_ne_nil p)
  rw [lookup, steps] at hloc
  split at hloc
  · cases hloc
  · split at hloc
    · obtain ⟨k, hk, mid, hwalk⟩ := walk_init (.inl (List.cons_ne_nil _ _)) hloc
      exact taken_of_walksIn hwalk hk hstart
    · rw [List.append_nil] at hloc
      exact ⟨loc, n', hloc, hn⟩

/-- In front of the last component of a path that is taken there is a directory. -/
theorem Taken.dir (h : Taken v t p) (hbody : body p = cs ++ [c]) :
    ∃ k ≤ v.limit, ∃ mid, WalksIn t k (start v p) cs mid ∧ t.isDir mid = true := by
  obtain ⟨loc, n, hwalk, _⟩ := h
  rw [hbody] at hwalk
  obtain ⟨k, hk, mid, hinit⟩ := walk_init (.inl (List.cons_ne_nil _ _)) hwalk
  rw [hinit.walk_append (.inl (List.cons_ne_nil _ _)) hk] at hwalk
  exact ⟨k, hk, mid, hinit, (walk_sound hwalk).isDir_start (List.cons_ne_nil _ _)⟩

/-- So its parent is taken. -/
theorem Taken.parent (h : Taken v t p) (hbody : body p = body q ++ [c])
    (hstart : start v p = start v q) : Taken v t q := by
  obtain ⟨k, hk, mid, hwalk, hdir⟩ := h.dir hbody
  rw [hstart] at hwalk
  refine taken_of_walksIn hwalk hk ?_
  by_cases hne : body q = []
  · rw [hne] at hwalk
    cases hwalk
    exact hdir
  · exact hwalk.walks.isDir_start hne

/-- The place of the last name of a path. -/
inductive Names (v : View) (t : Tree) (p : OsString) : Loc → Prop
  | intro {cs name k mid} (hbody : body p = cs ++ [.normal name]) (hk : k ≤ v.limit)
      (hwalk : WalksIn t k (start v p) cs mid) (hdir : t.isDir mid = true) :
      Names v t p (mid ++ [name])

namespace Names

theorem keepsKinds (hkeeps : KeepsKinds t t') (h : Names v t p loc) : Names v t' p loc := by
  cases h with
  | intro hbody hk hwalk hdir =>
      exact .intro hbody hk (hwalk.keepsKinds hkeeps) (hkeeps.isDir hdir)

theorem unique {loc' : Loc} (h : Names v t p loc) (h' : Names v t p loc') : loc = loc' := by
  cases h with
  | intro hbody _ hwalk _ =>
      cases h' with
      | intro hbody' _ hwalk' _ =>
          obtain ⟨rfl, hname⟩ := List.append_inj' (hbody.symm.trans hbody') rfl
          cases hname
          rw [hwalk.walks.unique hwalk'.walks]

/-- Where there is an entry, a lookup that follows no link at the end leads to it. -/
theorem walk_entry {n : Node} (h : Names v t p loc) (hn : t.node loc = some n) :
    t.walk false false v.limit (start v p) (body p) = .ok loc := by
  cases h with
  | @intro cs name k mid hbody hk hwalk hdir =>
      obtain ⟨onLink, hfrom⟩ := walk_eq_walkFrom t false false (v.limit - k)
      rw [hbody, hwalk.walk_append (.inl (List.cons_ne_nil _ _)) hk, hfrom]
      refine (if_pos hdir).trans ?_
      dsimp only
      rw [hn]
      cases n with
      | link text => rfl
      | dir mode => rfl
      | file mode content => rfl
      | special mode => rfl

/-- Where the entry is no link, any lookup leads to it. -/
theorem walk_plain {n : Node} {follow missing : Bool} (h : Names v t p loc) (hn : t.node loc = some n)
    (hlink : n.isLink = false) :
    t.walk follow missing v.limit (start v p) (body p) = .ok loc := by
  cases h with
  | @intro cs name k mid hbody hk hwalk hdir =>
      obtain ⟨onLink, hfrom⟩ := walk_eq_walkFrom t follow missing (v.limit - k)
      rw [hbody, hwalk.walk_append (.inl (List.cons_ne_nil _ _)) hk, hfrom]
      refine (if_pos hdir).trans ?_
      dsimp only
      rw [hn]
      cases n with
      | link text => cases hlink
      | dir mode => rfl
      | file mode content => rfl
      | special mode => rfl

theorem taken {n : Node} (h : Names v t p loc) (hn : t.node loc = some n) : Taken v t p :=
  ⟨loc, n, h.walk_entry hn, hn⟩

/-- Where there is no entry, one can be made. -/
theorem walk_new {follow : Bool} (h : Names v t p loc) (hn : t.node loc = none) :
    t.walk follow true v.limit (start v p) (body p) = .ok loc := by
  cases h with
  | @intro cs name k mid hbody hk hwalk hdir =>
      obtain ⟨onLink, hfrom⟩ := walk_eq_walkFrom t follow true (v.limit - k)
      rw [hbody, hwalk.walk_append (.inl (List.cons_ne_nil _ _)) hk, hfrom]
      refine (if_pos hdir).trans ?_
      dsimp only
      rw [hn]
      rfl

/-- A lookup that follows no link at the end leads there, if it leads anywhere. -/
theorem eq_of_walks {loc' : Loc} {missing : Bool} (h : Names v t p loc)
    (hwalk : Walks t false missing (start v p) (body p) loc') : loc' = loc := by
  cases h with
  | @intro cs name k mid hbody hk hinit hdir =>
      rw [hbody] at hwalk
      obtain ⟨mid', hinit', hlast⟩ := hwalk.split (List.cons_ne_nil _ _)
      obtain rfl := hinit.walks.unique hinit'
      rcases hlast.name_cases.2 with ⟨_, _, _, rfl⟩ | ⟨_, _, hfollow, _⟩ | ⟨_, _, _, rfl⟩ | ⟨_, _, rfl⟩
      · rfl
      · cases hfollow
      · rfl
      · rfl

theorem node (h : Names v t p loc) (htaken : Taken v t p) : ∃ n, t.node loc = some n := by
  obtain ⟨loc', n, hwalk, hn⟩ := htaken
  cases hloc : t.node loc with
  | some n => exact ⟨n, rfl⟩
  | none =>
      cases h with
      | @intro cs name k mid hbody hk hinit hdir =>
          obtain ⟨onLink, hfrom⟩ := walk_eq_walkFrom t false false (v.limit - k)
          rw [hbody, hinit.walk_append (.inl (List.cons_ne_nil _ _)) hk, hfrom] at hwalk
          have hnone := (if_pos hdir).symm.trans hwalk
          dsimp only at hnone
          rw [hloc] at hnone
          cases hnone

theorem fits (h : Names v t p loc) (hn : t.node loc = none) : t.fits loc = true := by
  cases h with
  | @intro cs name k mid hbody hk hwalk hdir =>
      refine fits_concat.mpr ⟨hdir, ?_, isDir_of_none hn⟩
      refine entryName_of_mem_steps (p := p) (List.mem_append_left _ ?_)
      rw [hbody]
      exact List.mem_append_right _ List.mem_cons_self

end Names

/-- A path that is not taken, in a directory, names a place with nothing in it. -/
theorem names_of_free (hbody : body p = cs ++ [c]) (hk : k ≤ v.limit)
    (hwalk : WalksIn t k (start v p) cs mid) (hdir : t.isDir mid = true) (hfree : ¬ Taken v t p) :
    ∃ loc, Names v t p loc ∧ t.node loc = none := by
  have hc : c ∈ body p := by
    rw [hbody]
    exact List.mem_append_right _ List.mem_cons_self
  rcases mem_body hc with rfl | ⟨name, rfl, _⟩
  · refine absurd ?_ hfree
    obtain ⟨mode, hn⟩ := isDir_iff.mp (Walks.isDir_dropLast hdir)
    obtain ⟨onLink, hfrom⟩ := walk_eq_walkFrom t false false (v.limit - k)
    refine ⟨mid.dropLast, .dir mode, ?_, hn⟩
    rw [hbody, hwalk.walk_append (.inl (List.cons_ne_nil _ _)) hk, hfrom]
    exact if_pos hdir
  · have hnames : Names v t p (mid ++ [name]) := .intro hbody hk hwalk hdir
    refine ⟨_, hnames, ?_⟩
    cases hn : t.node (mid ++ [name]) with
    | none => rfl
    | some n => exact absurd (hnames.taken hn) hfree

/-- A lookup that leads to a missing entry asks for no more than components. -/
theorem steps_of_new {follow missing : Bool} {limit : Nat} {cur : Loc}
    (h : t.walk follow missing limit cur (steps p) = .ok loc) (hn : t.node loc = none) :
    steps p = body p := by
  rw [steps] at h ⊢
  split at h
  · have hdir := (walk_sound h).curDir_last.2
    rw [isDir_of_none hn] at hdir
    cases hdir
  · rename_i hblank
    rw [if_neg hblank, List.append_nil]

/-- Where an entry can be made, the path names its place. -/
theorem names_of_new {follow : Bool} (h : t.walk follow true v.limit (start v p) (body p) = .ok loc)
    (hn : t.node loc = none) (hne : body p ≠ []) (hfree : ¬ Taken v t p) : Names v t p loc := by
  rcases List.eq_nil_or_concat (body p) with hnil | ⟨cs, c, hbody⟩
  · exact absurd hnil hne
  · rw [List.concat_eq_append] at hbody
    have hlast := h
    rw [hbody] at hlast
    obtain ⟨k, hk, mid, hinit⟩ := walk_init (.inl (List.cons_ne_nil _ _)) hlast
    rw [hinit.walk_append (.inl (List.cons_ne_nil _ _)) hk] at hlast
    have hdir := (walk_sound hlast).isDir_start (List.cons_ne_nil _ _)
    obtain ⟨loc', hnames, hnone⟩ := names_of_free hbody hk hinit hdir hfree
    obtain rfl := Except.ok.inj ((hnames.walk_new hnone).symm.trans h)
    exact hnames

end Tree
end FileTree

/-
The places a lookup comes to.

`Visits` collects what is looked up by name on the way, also where the texts of the
links lead through.  Two lookups in a row visit what each of them does, and a link
that is visited has fewer links behind it than the lookup (`fewer`).
-/
import DracutInstall.Lib.TreeMirror

namespace FileTree
namespace Tree

open UnixPath

/-- A lookup that follows all links comes to the entry `l`. -/
inductive Visits (t : Tree) : Loc → List Component → Loc → Prop
  | rootDir {cur rest l} (hdir : t.isDir cur = true) (h : Visits t [] rest l) :
      Visits t cur (.rootDir :: rest) l
  | curDir {cur rest l} (hdir : t.isDir cur = true) (h : Visits t cur rest l) :
      Visits t cur (.curDir :: rest) l
  | parentDir {cur rest l} (hdir : t.isDir cur = true) (h : Visits t cur.dropLast rest l) :
      Visits t cur (.parentDir :: rest) l
  | here {cur name rest n} (hn : t.node (cur ++ [name]) = some n) :
      Visits t cur (.normal name :: rest) (cur ++ [name])
  | entry {cur name n rest l} (hdir : t.isDir cur = true) (hn : t.node (cur ++ [name]) = some n)
      (hlink : n.isLink = false) (h : Visits t (cur ++ [name]) rest l) :
      Visits t cur (.normal name :: rest) l
  | link {cur name text rest l} (hdir : t.isDir cur = true)
      (hn : t.node (cur ++ [name]) = some (.link text))
      (h : Visits t (linkBase cur text) (steps text ++ rest) l) :
      Visits t cur (.normal name :: rest) l

variable {t : Tree} {cur mid l y : Loc} {cs ds : List Component} {name : OsString}

namespace Visits

theorem append_left (h : Visits t cur cs l) (ds : List Component) : Visits t cur (cs ++ ds) l := by
  induction h with
  | rootDir hdir _ ih => exact .rootDir hdir ih
  | curDir hdir _ ih => exact .curDir hdir ih
  | parentDir hdir _ ih => exact .parentDir hdir ih
  | here hn => exact .here hn
  | entry hdir hn hlink _ ih => exact .entry hdir hn hlink ih
  | link hdir hn _ ih =>
      rw [List.append_assoc] at ih
      exact .link hdir hn ih

/-- What is visited behind the place that the first components lead to. -/
theorem behind (hwalk : Walks t true false cur cs mid) (h : Visits t mid ds l) :
    Visits t cur (cs ++ ds) l := by
  induction hwalk with
  | done cur => exact h
  | rootDir hdir _ ih => exact .rootDir hdir (ih h)
  | curDir hdir _ ih => exact .curDir hdir (ih h)
  | parentDir hdir _ ih => exact .parentDir hdir (ih h)
  | entry hdir hn hlink _ ih => exact .entry hdir hn hlink (ih h)
  | link hdir hn _ _ ih =>
      have hrest := ih h
      rw [List.append_assoc] at hrest
      exact .link hdir hn hrest
  | last hdir hn hfollow => cases hfollow
  | new hdir hn hmissing => cases hmissing

/-- A visit belongs to the first components, or to the rest behind them. -/
theorem split (h : Visits t cur (cs ++ ds) l) :
    Visits t cur cs l ∨ ∃ mid, Walks t true false cur cs mid ∧ Visits t mid ds l := by
  obtain ⟨es, hes⟩ : ∃ es, es = cs ++ ds := ⟨_, rfl⟩
  rw [← hes] at h
  have hwhole {cur es} (h : Visits t cur es l) (hds : es = [] ++ ds) :
      Visits t cur [] l ∨ ∃ mid, Walks t true false cur [] mid ∧ Visits t mid ds l := by
    obtain rfl : es = ds := hds
    exact .inr ⟨cur, .done cur, h⟩
  induction h generalizing cs with
  | rootDir hdir h ih =>
      cases cs with
      | nil => exact hwhole (.rootDir hdir h) hes
      | cons c cs =>
          obtain ⟨rfl, rfl⟩ := List.cons.inj hes
          rcases ih rfl hwhole with h | ⟨mid, hwalk, h⟩
          · exact .inl (.rootDir hdir h)
          · exact .inr ⟨mid, .rootDir hdir hwalk, h⟩
  | curDir hdir h ih =>
      cases cs with
      | nil => exact hwhole (.curDir hdir h) hes
      | cons c cs =>
          obtain ⟨rfl, rfl⟩ := List.cons.inj hes
          rcases ih rfl hwhole with h | ⟨mid, hwalk, h⟩
          · exact .inl (.curDir hdir h)
          · exact .inr ⟨mid, .curDir hdir hwalk, h⟩
  | parentDir hdir h ih =>
      cases cs with
      | nil => exact hwhole (.parentDir hdir h) hes
      | cons c cs =>
          obtain ⟨rfl, rfl⟩ := List.cons.inj hes
          rcases ih rfl hwhole with h | ⟨mid, hwalk, h⟩
          · exact .inl (.parentDir hdir h)
          · exact .inr ⟨mid, .parentDir hdir hwalk, h⟩
  | here hn =>
      cases cs with
      | nil => exact hwhole (.here hn) hes
      | cons c cs =>
          obtain ⟨rfl, rfl⟩ := List.cons.inj hes
          exact .inl (.here hn)
  | entry hdir hn hlink h ih =>
      cases cs with
      | nil => exact hwhole (.entry hdir hn hlink h) hes
      | cons c cs =>
          obtain ⟨rfl, rfl⟩ := List.cons.inj hes
          rcases ih rfl hwhole with h | ⟨mid, hwalk, h⟩
          · exact .inl (.entry hdir hn hlink h)
          · exact .inr ⟨mid, .entry hdir hn hlink hwalk, h⟩
  | link hdir hn h ih =>
      cases cs with
      | nil => exact hwhole (.link hdir hn h) hes
      | cons c cs =>
          obtain ⟨rfl, rfl⟩ := List.cons.inj hes
          rcases ih (List.append_assoc _ _ _).symm hwhole with h | ⟨mid, hwalk, h⟩
          · exact .inl (.link hdir hn h)
          · exact .inr ⟨mid, .link hdir hn (.inr rfl) hwalk, h⟩

/-- One component, and what is behind the place it leads to. -/
theorem step {c : Component} (h : Visits t cur (c :: cs) l) (hwalk : Walks t true false cur [c] mid) :
    Visits t cur [c] l ∨ Visits t mid cs l := by
  rw [← List.singleton_append] at h
  rcases h.split with h | ⟨mid', hwalk', h⟩
  · exact .inl h
  · obtain rfl := hwalk.unique hwalk'
    exact .inr h

/-- A name at the end: the entry, and what its text leads through if it is a link. -/
theorem name_cases (h : Visits t cur [.normal name] l) :
    l = cur ++ [name] ∨ ∃ text, t.node (cur ++ [name]) = some (.link text) ∧
      Visits t (linkBase cur text) (steps text) l := by
  cases h with
  | here hn => exact .inl rfl
  | entry _ _ _ h => cases h
  | link _ hn h =>
      rw [List.append_nil] at h
      exact .inr ⟨_, hn, h⟩

/-- Only names are visited. -/
theorem of_one {c : Component} (h : Visits t cur [c] l) : ∃ name, c = .normal name := by
  cases h with
  | rootDir _ h => cases h
  | curDir _ h => cases h
  | parentDir _ h => cases h
  | here _ => exact ⟨_, rfl⟩
  | entry _ _ _ _ => exact ⟨_, rfl⟩
  | link _ _ _ => exact ⟨_, rfl⟩

/-- A name behind other components adds its entry, and what a link there leads through. -/
theorem concat_iff (hwalk : Walks t true false cur cs mid) {n : Node}
    (hn : t.node (mid ++ [name]) = some n) :
    Visits t cur (cs ++ [.normal name]) l ↔ Visits t cur cs l ∨ l = mid ++ [name] ∨
      ∃ text, n = .link text ∧ Visits t (linkBase mid text) (steps text) l := by
  constructor
  · intro h
    rcases h.split with h | ⟨mid', hwalk', h⟩
    · exact .inl h
    · obtain rfl := hwalk.unique hwalk'
      rcases h.name_cases with rfl | ⟨text, htext, h⟩
      · exact .inr (.inl rfl)
      · exact .inr (.inr ⟨text, Option.some.inj (hn.symm.trans htext), h⟩)
  · rintro (h | rfl | ⟨text, rfl, h⟩)
    · exact h.append_left _
    · exact .behind hwalk (.here hn)
    · have hdir : t.isDir mid = true := isDir_iff.mpr (t.parent mid name (by rw [hn]; simp))
      refine .behind hwalk (.link hdir hn ?_)
      rw [List.append_nil]
      exact h

/-- A link that a lookup visits has fewer links behind it than the lookup goes through. -/
theorem fewer {d : Loc} {text : OsString} {k : Nat} (h : Visits t cur cs l) (hl : l = d ++ [name])
    (htext : t.node (d ++ [name]) = some (.link text)) (hwalk : WalksIn t k cur cs y) :
    ∃ j < k, ∃ z, WalksIn t j (linkBase d text) (steps text) z := by
  induction h generalizing k with
  | rootDir _ _ ih =>
      cases hwalk with
      | rootDir _ hwalk => exact ih hl hwalk
  | curDir _ _ ih =>
      cases hwalk with
      | curDir _ hwalk => exact ih hl hwalk
  | parentDir _ _ ih =>
      cases hwalk with
      | parentDir _ hwalk => exact ih hl hwalk
  | here hn =>
      obtain ⟨rfl, hname⟩ := List.append_inj' hl rfl
      obtain rfl := List.singleton_inj.mp hname
      cases hwalk with
      | entry _ hn' hlink _ =>
          obtain rfl := Option.some.inj (htext.symm.trans hn')
          cases hlink
      | link _ hn' hwalk =>
          obtain rfl := Node.link.inj (Option.some.inj (htext.symm.trans hn'))
          obtain ⟨a, b, z, hsum, hwalk, _⟩ := hwalk.split
          exact ⟨a, by omega, z, hwalk⟩
  | entry _ hn hlink _ ih =>
      cases hwalk with
      | entry _ _ _ hwalk => exact ih hl hwalk
      | link _ hn' _ =>
          obtain rfl := Option.some.inj (hn.symm.trans hn')
          cases hlink
  | link _ hn _ ih =>
      cases hwalk with
      | entry _ hn' hlink _ =>
          obtain rfl := Option.some.inj (hn.symm.trans hn')
          cases hlink
      | link _ hn' hwalk =>
          obtain rfl := Node.link.inj (Option.some.inj (hn.symm.trans hn'))
          obtain ⟨j, hj, hrest⟩ := ih hl hwalk
          exact ⟨j, Nat.lt_succ_of_lt hj, hrest⟩

theorem body_of_steps {p : OsString} (h : Visits t cur (steps p) l) : Visits t cur (body p) l := by
  rcases h.split with h | ⟨mid, _, h⟩
  · exact h
  · split at h
    · obtain ⟨name, hname⟩ := h.of_one
      cases hname
    · cases h

theorem ne_nil (h : Visits t cur cs l) : l ≠ [] := by
  induction h with
  | rootDir _ _ ih => exact ih
  | curDir _ _ ih => exact ih
  | parentDir _ _ ih => exact ih
  | here _ => simp
  | entry _ _ _ _ ih => exact ih
  | link _ _ _ ih => exact ih

end Visits

end Tree
end FileTree

/-
The calls of a run, worked out.

`Nested` says that a run comes to a call; `calls` lists the calls it comes to.  From
the list come the worlds in which a call is about to copy (`copyCalls`), and those in
which it has its entry still to make (`pendingCalls`).  A bound that lets the run come
back shows all of its calls (`Nested.lower`).
-/
import DracutInstall.File.CloneGrowth

namespace DracutInstall
namespace File

open Rust Process UnixPath FileTree

variable {env : Env} {root source s : OsString} {fuel f m : Nat} {w v u w₁ before after : World}
  {n : Node} {relaxed : Option (OsString × Nat)}

/-! ## What a call comes to -/

/-- The result of a run that ends well. -/
def okOf {α : Type} : Option (Outcome CloneError α × World) → Option (α × World)
  | some (.ok a, w) => some (a, w)
  | _ => none

/-- The answer of a system call that does not fail. -/
def answerOf {α : Type} (r : Option (Outcome CloneError (Except Errno α) × World)) :
    Option (α × World) := do
  let (a, w) ← okOf r
  let a ← a.toOption
  some (a, w)

variable (env root)

/-- The world in which a call has not found its target. -/
def missed (s : OsString) (v : World) : Option World := do
  let (r, w₁) ← okOf (symlinkMetadata env (targetOf root s) (v.line (.clonePath s (targetOf root s))))
  if r.toOption.isNone then some w₁ else none

/-- The entry of a call that comes to its branch, and the world in which it does. -/
def entered (f : Nat) (s : OsString) (v : World) : Option (Node × World) := do
  let w₁ ← missed env root s v
  let dir ← parent s
  let (_, w₂) ← okOf (clonePath env root f dir w₁)
  let (n, before) ← answerOf (symlinkMetadata env s w₂)
  let (_, after) ← okOf (relax env (targetOf root s) before)
  some (n, after)

/-- The call on the parent. -/
def parentCall (s : OsString) (v : World) : Option (OsString × World) := do
  let w₁ ← missed env root s v
  let dir ← parent s
  some (dir, w₁)

/-- The call on what a link leads to. -/
def linkCall (f : Nat) (s : OsString) (v : World) : Option (OsString × World) := do
  let (n, after) ← entered env root f s v
  let (text, w₁) ← answerOf (readLink env s after)
  if n.isLink then some (linkPath s text, w₁) else none

/-- The world in which a call is about to copy. -/
def copying (f : Nat) (s : OsString) (v : World) : Option World := do
  let (n, after) ← entered env root f s v
  let (dir, w₁) ← okOf (isDir env s after)
  let (file, w₂) ← okOf (isFile env s w₁)
  if !n.isLink && !dir && file then some (w₂.line (.clonePathCopy s (targetOf root s))) else none

/-- The world in which a call is about to make a link. -/
def linking (f : Nat) (s : OsString) (v : World) : Option World := do
  let (path, w₁) ← linkCall env root f s v
  let (_, w₂) ← okOf (clonePath env root f path w₁)
  some ((w₂.line (.clonePathSymlink path (targetOf root s))).line
    (.lnRSymlink (targetOf root path) (targetOf root s)))

/-- The worlds in which a call has its entry still to make. -/
def pendingIn (f : Nat) (s : OsString) (v : World) : List World :=
  ((entered env root f s v).map Prod.snd).toList ++ (linking env root f s v).toList

variable {env root}

theorem Missing.missed (h : Missing env root s v w₁) : missed env root s v = some w₁ := by
  obtain ⟨e, hask⟩ := h
  rw [File.missed, hask]
  rfl

theorem AtEntry.entered
    (h : AtEntry env root (clonePath env root f) s v n before relaxed after) :
    entered env root f s v = some (n, after) := by
  cases h with
  | intro hmissing hparent hclone hstatus hrelax =>
      rw [File.entered, hmissing.missed, hparent]
      dsimp only [Option.bind_eq_bind, Option.bind_some]
      rw [hclone]
      dsimp only [okOf, Option.bind_some]
      rw [hstatus]
      dsimp only [answerOf, okOf, Option.bind_eq_bind, Option.bind_some, Except.toOption]
      rw [hrelax]
      rfl

theorem AtEntry.linkCall {text : OsString}
    (h : AtEntry env root (clonePath env root f) s v n before relaxed after)
    (hlink : n.isLink = true) (hread : readLink env s after = some (.ok (.ok text), w₁)) :
    linkCall env root f s v = some (linkPath s text, w₁) := by
  rw [File.linkCall, h.entered]
  dsimp only [Option.bind_eq_bind, Option.bind_some]
  rw [hread]
  exact if_pos hlink

theorem MakesCopy.copying (h : MakesCopy env root f s v u) : copying env root f s v = some u := by
  cases h with
  | intro hentry hlink hdir hfile hcopies =>
      rw [File.copying, hentry.entered, hcopies]
      dsimp only [Option.bind_eq_bind, Option.bind_some]
      rw [hdir]
      dsimp only [okOf, Option.bind_some]
      rw [hfile]
      apply if_pos
      rw [hlink]
      rfl

theorem MakesLink.linking {path : OsString} (h : MakesLink env root f s v path u) :
    linking env root f s v = some u := by
  cases h with
  | intro hentry hlink hread hclone =>
      rw [File.linking, hentry.linkCall hlink hread]
      dsimp only [Option.bind_eq_bind, Option.bind_some]
      rw [hclone]
      rfl

theorem Pending.mem_pendingIn (h : Pending env root f s v u) : u ∈ pendingIn env root f s v := by
  rw [pendingIn, List.mem_append, Option.mem_toList, Option.mem_toList]
  cases h with
  | entry hentry =>
      rw [hentry.entered]
      exact .inl rfl
  | link hmakes =>
      rw [hmakes.linking]
      exact .inr rfl

/-! ## The calls of a run -/

variable (env root)

/-- All the calls that a run comes to, each with its bound and its world. -/
def calls : Nat → OsString → World → List (Nat × OsString × World)
  | 0, s, v => [(0, s, v)]
  | f + 1, s, v => (f + 1, s, v) ::
      ((parentCall env root s v).toList.flatMap (fun c => calls f c.1 c.2) ++
        (linkCall env root f s v).toList.flatMap fun c => calls f c.1 c.2)

/-- What the calls of a run come to. -/
def atCalls {α : Type} (g : Nat → OsString → World → List α) (fuel : Nat) (source : OsString)
    (w : World) : List (OsString × α) :=
  (calls env root fuel source w).flatMap fun c =>
    match c.1 with
    | 0 => []
    | f + 1 => (g f c.2.1 c.2.2).map fun a => (c.2.1, a)

/-- The copies of a run, each with the world it starts from. -/
def copyCalls (fuel : Nat) (source : OsString) (w : World) : List (OsString × World) :=
  atCalls env root (fun f s v => (copying env root f s v).toList) fuel source w

/-- The calls of an installation that have their entry still to make. -/
def pendingCalls (fuel : Nat) : List OsString → World → List (OsString × World)
  | [], _ => []
  | file :: files, w =>
      atCalls env root (pendingIn env root) fuel file w ++
        (okOf (clonePath env root fuel file w)).toList.flatMap fun r => pendingCalls fuel files r.2

variable {env root}

theorem Nested.mem_calls (h : Nested env root fuel source w f s v) :
    (f, s, v) ∈ calls env root fuel source w := by
  induction h with
  | self fuel source w =>
      cases fuel with
      | zero => exact List.mem_singleton.mpr rfl
      | succ fuel => exact List.mem_cons_self
  | parent hmissing hparent _ ih =>
      refine List.mem_cons_of_mem _ (List.mem_append_left _ (List.mem_flatMap.mpr ⟨(_, _), ?_, ih⟩))
      rw [parentCall, hmissing.missed, hparent]
      exact Option.mem_toList.mpr rfl
  | link hentry hlink hread _ ih =>
      refine List.mem_cons_of_mem _ (List.mem_append_right _ (List.mem_flatMap.mpr ⟨(_, _), ?_, ih⟩))
      rw [hentry.linkCall hlink hread]
      exact Option.mem_toList.mpr rfl

theorem Nested.mem_atCalls {α : Type} {g : Nat → OsString → World → List α} {a : α}
    (h : Nested env root fuel source w (f + 1) s v) (ha : a ∈ g f s v) :
    (s, a) ∈ atCalls env root g fuel source w :=
  List.mem_flatMap.mpr ⟨_, h.mem_calls, List.mem_map_of_mem ha⟩

theorem MakesCopy.mem_copyCalls (h : MakesCopy env root f s v u)
    (hnested : Nested env root fuel source w (f + 1) s v) : (s, u) ∈ copyCalls env root fuel source w := by
  refine hnested.mem_atCalls ?_
  rw [h.copying]
  exact Option.mem_toList.mpr rfl

/-! ## Higher bounds -/

theorem Missing.lower {dir : OsString} {out : Outcome CloneError Unit × World}
    (h : Missing env root s v w₁) (hparent : parent s = some dir)
    (hrun : clonePath env root (f + 1) s v = some out) :
    ∃ out', clonePath env root f dir w₁ = some out' := by
  rcases h.ends hparent (cloneStep_ends hrun) with ⟨u, hclone⟩ | hclone
  · exact ⟨_, hclone⟩
  · exact ⟨_, hclone⟩

theorem AtEntry.lower {out : Outcome CloneError Unit × World}
    (h : AtEntry env root (clonePath env root (f + m)) s v n before relaxed after)
    (hrun : clonePath env root (f + 1) s v = some out) :
    AtEntry env root (clonePath env root f) s v n before relaxed after := by
  cases h with
  | intro hmissing hparent hclone hstatus hrelax =>
      obtain ⟨out', hlow⟩ := hmissing.lower hparent hrun
      obtain rfl := clonePath_agree hlow hclone
      exact .intro hmissing hparent hlow hstatus hrelax

/-- The call on what a link leads to comes back in a run that does. -/
theorem AtEntry.link_lower {text : OsString} {out : Outcome CloneError Unit × World}
    (h : AtEntry env root (clonePath env root f) s v n before relaxed after)
    (hlink : n.isLink = true) (hread : readLink env s after = some (.ok (.ok text), w₁))
    (hrun : clonePath env root (f + 1) s v = some out) :
    ∃ out', clonePath env root f (linkPath s text) w₁ = some out' := by
  have hfollowed {r u} (hends : EntryEnds env root (clonePath env root f) f s (targetOf root s) n
      after r u) : ∃ out', clonePath env root f (linkPath s text) w₁ = some out' := by
    rcases hends.followed hlink hread with ⟨_, _, _, hclone, _⟩ | ⟨_, _, hclone⟩ | ⟨_, hclone⟩
    · exact ⟨_, hclone⟩
    · exact ⟨_, hclone⟩
    · exact ⟨_, hclone⟩
  rcases h.ends (cloneStep_ends hrun) with ⟨_, _, hends⟩ | ⟨_, hends⟩ | ⟨_, _, hends, _⟩
  · exact hfollowed hends
  · exact hfollowed hends
  · exact hfollowed hends

theorem Nested.lower {F : Nat} {out : Outcome CloneError Unit × World}
    (hrun : clonePath env root F source w = some out)
    (h : Nested env root (F + m) source w f s v) :
    ∃ g, f = g + m ∧ Nested env root F source w g s v ∧
      ∃ out', clonePath env root g s v = some out' := by
  obtain ⟨G, hG⟩ : ∃ G, G = F + m := ⟨_, rfl⟩
  rw [← hG] at h
  induction h generalizing F out with
  | self fuel source w => exact ⟨F, hG, .self F source w, out, hrun⟩
  | @parent fuel source w dir w₁ f s v hmissing hparent hnested ih =>
      cases F with
      | zero => cases hrun
      | succ F =>
          obtain ⟨out', hlow⟩ := hmissing.lower hparent hrun
          obtain ⟨g, hg, hinner, hout⟩ := ih hlow (by omega)
          exact ⟨g, hg, .parent hmissing hparent hinner, hout⟩
  | @link fuel source w n before relaxed after text w₁ f s v hentry hlink hread hnested ih =>
      cases F with
      | zero => cases hrun
      | succ F =>
          obtain rfl : fuel = F + m := by omega
          have hentry' := hentry.lower hrun
          obtain ⟨out', hlow⟩ := hentry'.link_lower hlink hread hrun
          obtain ⟨g, hg, hinner, hout⟩ := ih hlow rfl
          exact ⟨g, hg, .link hentry' hlink hread hinner, hout⟩

theorem Pending.below {f' : Nat} (hle : f ≤ f') (h : Pending env root f s v u) :
    Pending env root f' s v u := by
  cases h with
  | entry hentry => exact .entry (hentry.below hle)
  | link hmakes =>
      cases hmakes with
      | intro hentry hlink hread hclone =>
          exact .link (.intro (hentry.below hle) hlink hread (clonePath_below hle _ _ hclone))

theorem Pending.lower {out : Outcome CloneError Unit × World}
    (hrun : clonePath env root (f + 1) s v = some out) (h : Pending env root (f + m) s v u) :
    Pending env root f s v u := by
  cases h with
  | entry hentry => exact .entry (hentry.lower hrun)
  | link hmakes =>
      cases hmakes with
      | intro hentry hlink hread hclone =>
          have hentry' := hentry.lower hrun
          obtain ⟨out', hlow⟩ := hentry'.link_lower hlink hread hrun
          obtain rfl := clonePath_agree hlow hclone
          exact .link (.intro hentry' hlink hread hlow)

/-- Whatever the bound, a pending call is listed with a bound that lets the run come back. -/
theorem Pending.mem_atCalls {F : Nat} {out : Outcome CloneError Unit × World}
    (hrun : clonePath env root F source w = some out)
    (hnested : Nested env root fuel source w (f + 1) s v) (h : Pending env root f s v u) :
    (s, u) ∈ atCalls env root (pendingIn env root) F source w := by
  have hraised : Nested env root (F + fuel) source w (f + 1 + F) s v := by
    rw [Nat.add_comm F fuel]
    exact hnested.raise
  obtain ⟨g, hg, hlow, out', hends⟩ := Nested.lower hrun hraised
  cases g with
  | zero => cases hends
  | succ g =>
      have hpending : Pending env root (g + fuel) s v u := by
        have hbelow := h.below (Nat.le_add_right f F)
        rw [show f + F = g + fuel by omega] at hbelow
        exact hbelow
      exact hlow.mem_atCalls (hpending.lower hends).mem_pendingIn

end File
end DracutInstall

/-
Whether the recursion of `clone_path` ends.

The guard looks for the target, which a link gets behind the call on what it leads
to; a call that comes to a link which a call around it is following already goes on
for ever.  A run that comes to no such link, and to none it has made itself, ends:
each followed link uses up one of the finitely many of the tree.
-/
import Mathlib.Data.Finset.Card
import DracutInstall.File.CloneDepth

namespace DracutInstall
namespace File

open ByteCodec Rust Process UnixPath FileTree

variable {env : Env} {root source : OsString} {fuel fuel' : Nat}

/-! ## Links that are being followed -/

/-- The call on `source` in `w` follows the link at `loc`: it calls itself on `path` in
`w₁`. -/
inductive TakesLink (env : Env) (root : OsString) (fuel : Nat) (source : OsString) (w : World)
    (loc : Loc) : OsString → World → Prop
  | intro {n before relaxed after text w₁}
      (hentry : AtEntry env root (clonePath env root fuel) source w n before relaxed after)
      (hlink : n.isLink = true)
      (hloc : before.tree.lookup env.view false false source = .ok loc)
      (hread : readLink env source after = some (.ok (.ok text), w₁)) :
      TakesLink env root fuel source w loc (linkPath source text) w₁

/-- The calls of a run, with the links that the calls around them are following. -/
inductive Following (env : Env) (root : OsString) : Nat → OsString → World → List Loc →
    Nat → OsString → World → Prop
  | self (fuel : Nat) (source : OsString) (w : World) :
      Following env root fuel source w [] fuel source w
  | parent {fuel source w dir w₁ trail f s v} (hmissing : Missing env root source w w₁)
      (hparent : parent source = some dir)
      (hfollowing : Following env root fuel dir w₁ trail f s v) :
      Following env root (fuel + 1) source w trail f s v
  | link {fuel source w loc path w₁ trail f s v} (htakes : TakesLink env root fuel source w loc path w₁)
      (hfollowing : Following env root fuel path w₁ trail f s v) :
      Following env root (fuel + 1) source w (loc :: trail) f s v

theorem TakesLink.below {w w₁ : World} {loc : Loc} {path : OsString} (hle : fuel ≤ fuel')
    (h : TakesLink env root fuel source w loc path w₁) :
    TakesLink env root fuel' source w loc path w₁ := by
  cases h with
  | intro hentry hlink hloc hread => exact .intro (hentry.below hle) hlink hloc hread

theorem Following.raise {f m : Nat} {s : OsString} {w v : World} {trail : List Loc}
    (h : Following env root fuel source w trail f s v) :
    Following env root (fuel + m) source w trail (f + m) s v := by
  induction h with
  | self fuel source w => exact .self _ _ _
  | parent hmissing hparent _ ih =>
      rw [Nat.add_right_comm]
      exact .parent hmissing hparent ih
  | link htakes _ ih =>
      rw [Nat.add_right_comm]
      exact .link (htakes.below (Nat.le_add_right _ _)) ih

theorem TakesLink.keepsKinds {w w₁ : World} {loc : Loc} {path : OsString}
    (h : TakesLink env root fuel source w loc path w₁) : Tree.KeepsKinds w.tree w₁.tree := by
  cases h with
  | intro hentry _ _ hread =>
      obtain ⟨_, hbefore, hafter⟩ := hentry.found
      rw [ask_extends hread]
      exact hbefore.trans hafter

/-- No call of the run follows a link that a call around it is following already, or
one that the run has made. -/
def NoReentry (env : Env) (root source : OsString) (w : World) : Prop :=
  ∀ fuel trail f s v loc path w₁, Following env root fuel source w trail (f + 1) s v →
    TakesLink env root f s v loc path w₁ →
    loc ∉ trail ∧ ∃ text, w.tree.node loc = some (.link text)

/-- The links that may still be followed where those of `T` are being followed: `k` of
`L`. -/
def Remaining (env : Env) (root : OsString) (L : Finset Loc) (k : Nat) (source : OsString)
    (w : World) : Prop :=
  ∃ T ⊆ L, L.card ≤ T.card + k ∧ ∀ fuel trail f s v loc path w₁,
    Following env root fuel source w trail (f + 1) s v → TakesLink env root f s v loc path w₁ →
    loc ∉ trail ∧ loc ∈ L ∧ loc ∉ T

theorem Remaining.parent {L : Finset Loc} {k : Nat} {dir : OsString} {w w₁ : World}
    (h : Remaining env root L k source w) (hmissing : Missing env root source w w₁)
    (hparent : UnixPath.parent source = some dir) : Remaining env root L k dir w₁ := by
  obtain ⟨T, hsub, hcard, hfresh⟩ := h
  exact ⟨T, hsub, hcard, fun fuel trail f s v loc path w₂ hfollowing =>
    hfresh (fuel + 1) trail f s v loc path w₂ (.parent hmissing hparent hfollowing)⟩

theorem Remaining.link {L : Finset Loc} {k : Nat} {loc : Loc} {path : OsString} {w w₁ : World}
    (h : Remaining env root L k source w) (htakes : TakesLink env root fuel source w loc path w₁) :
    ∃ j < k, Remaining env root L j path w₁ := by
  obtain ⟨T, hsub, hcard, hfresh⟩ := h
  obtain ⟨_, hmem, hnew⟩ := hfresh _ _ _ _ _ _ _ _ (.self (fuel + 1) source w) htakes
  have hinsert : insert loc T ⊆ L := Finset.insert_subset hmem hsub
  have hcard' := Finset.card_insert_of_notMem hnew
  have hle := Finset.card_le_card hinsert
  refine ⟨k - 1, by omega, insert loc T, hinsert, by omega, ?_⟩
  intro fuel' trail f s v loc' path' w₂ hfollowing htakes'
  have hraised : Following env root (fuel' + fuel + 1) source w (loc :: trail) (f + 1 + fuel) s v :=
    .link (htakes.below (Nat.le_add_left fuel fuel')) hfollowing.raise
  rw [Nat.add_right_comm f 1 fuel] at hraised
  obtain ⟨hother, hmem', hnew'⟩ :=
    hfresh _ _ _ _ _ _ _ _ hraised (htakes'.below (Nat.le_add_right f fuel))
  refine ⟨fun hin => hother (List.mem_cons_of_mem _ hin), hmem', fun hin => ?_⟩
  rcases Finset.mem_insert.mp hin with rfl | hin
  · exact hother List.mem_cons_self
  · exact hnew' hin

/-- In a finite tree the recursion ends if no link is followed while it is being
followed: after finitely many calls, with a result if the copies come back. -/
theorem clonePath_ends {w : World} {locs : List Loc}
    (hfinite : ∀ loc n, w.tree.node loc = some n → loc ∈ locs)
    (hno : NoReentry env root source w) :
    (∃ N, DepthAtMost env root N source w) ∧
      (CopiesReturn env root source w → ∃ fuel out, clonePath env root fuel source w = some out) := by
  have hstart : Remaining env root locs.toFinset locs.toFinset.card source w := by
    refine ⟨∅, Finset.empty_subset _, Nat.le_add_left _ _, ?_⟩
    intro fuel trail f s v loc path w₁ hfollowing htakes
    obtain ⟨hnew, text, htext⟩ := hno fuel trail f s v loc path w₁ hfollowing htakes
    exact ⟨hnew, List.mem_toFinset.mpr (hfinite loc _ htext), Finset.notMem_empty loc⟩
  obtain ⟨N, hN⟩ := depth_of_descent (Remaining env root locs.toFinset)
    (fun k source dir w w₁ h hmissing hparent => h.parent hmissing hparent)
    (fun k source fuel n before relaxed after text w w₁ h hentry hlink hread => by
      obtain ⟨loc, hloc, _⟩ := Tree.status_lookup hentry.found.1
      exact h.link (.intro hentry hlink hloc hread)) _ source w hstart
  exact ⟨⟨N, hN⟩, clonePath_returns hN⟩

namespace Sample

/-- The one link that is followed is that of the source. -/
theorem linked_takes {w w₁ : World} {loc : Loc} {path : OsString}
    (hw : Tree.KeepsKinds linked w.tree)
    (hsource : source = ascii "/l" ∨ source = ascii "/f" ∨ source = ascii "/")
    (h : TakesLink calm (ascii "/r") fuel source w loc path w₁) :
    source = ascii "/l" ∧ loc = [ascii "l"] ∧ path = ascii "/f" := by
  cases h with
  | intro hentry hlink hloc hread =>
      obtain ⟨hstatus, hbefore, hafter⟩ := hentry.found
      have hkinds := hw.trans hbefore
      rcases hsource with rfl | rfl | rfl
      · have hlookup : linked.lookup calm.view false false (ascii "/l") = .ok [ascii "l"] := by
          decide +kernel
        have htext : linked.status calm.view false (ascii "/l") = .ok (.link (ascii "f")) := by
          decide +kernel
        obtain rfl := Except.ok.inj
          ((Tree.lookup_keepsKinds hkinds hlookup).symm.trans hloc)
        obtain ⟨n, hn, hkind⟩ := Tree.status_keepsKinds (hkinds.trans hafter) htext
        obtain rfl := (hkind.2.2 _).mp rfl
        have hread' := Tree.readLink_ok ((ask_ok hread).2 _ rfl)
        obtain rfl := Node.link.inj (Except.ok.inj (hn.symm.trans hread'))
        exact ⟨rfl, rfl, by decide +kernel⟩
      · have hfile : linked.status calm.view false (ascii "/f") = .ok (.file 0o644 [1, 2]) := by
          decide +kernel
        obtain ⟨n, hn, hkind⟩ := Tree.status_keepsKinds hkinds hfile
        obtain rfl := Except.ok.inj (hn.symm.trans hstatus)
        cases hkind.isLink.symm.trans hlink
      · cases hentry with
        | intro _ hparent _ _ _ => cases hparent

theorem linked_rest {w v : World} {trail : List Loc} {f : Nat} {s : OsString}
    (h : Following calm (ascii "/r") fuel source w trail f s v)
    (hw : Tree.KeepsKinds linked w.tree) (hsource : source = ascii "/f" ∨ source = ascii "/") :
    Tree.KeepsKinds linked v.tree ∧ (s = ascii "/f" ∨ s = ascii "/") := by
  induction h with
  | self => exact ⟨hw, hsource⟩
  | parent hmissing hdir _ ih =>
      refine ih (hmissing.tree ▸ hw) ?_
      rcases hsource with rfl | rfl
      · exact .inr (Option.some.inj hdir).symm
      · cases hdir
  | link htakes _ _ =>
      obtain ⟨rfl, _⟩ := linked_takes hw (.inr hsource) htakes
      rcases hsource with heq | heq
      · cases heq
      · cases heq

theorem linked_ends :
    (∃ N, DepthAtMost calm (ascii "/r") N (ascii "/l") (World.start linked ⟨true, true⟩)) ∧
      (CopiesReturn calm (ascii "/r") (ascii "/l") (World.start linked ⟨true, true⟩) →
        ∃ fuel out, clonePath calm (ascii "/r") fuel (ascii "/l")
          (World.start linked ⟨true, true⟩) = some out) := by
  have hfinite (loc : Loc) (n : Node) (hn : linked.node loc = some n) :
      loc ∈ [[], [ascii "r"], [ascii "f"], [ascii "l"]] := Tree.mem_of_ofEntries hn
  refine clonePath_ends hfinite ?_
  have hlink : linked.node [ascii "l"] = some (.link (ascii "f")) := by decide +kernel
  intro fuel trail f s v loc path w₁ hfollowing htakes
  have hrest {trail : List Loc} (hv : Tree.KeepsKinds linked v.tree)
      (hs : s = ascii "/f" ∨ s = ascii "/") :
      loc ∉ trail ∧ ∃ text, (World.start linked ⟨true, true⟩).tree.node loc = some (.link text) := by
    obtain ⟨rfl, _⟩ := linked_takes hv (.inr hs) htakes
    rcases hs with heq | heq
    · cases heq
    · cases heq
  cases hfollowing with
  | self =>
      obtain ⟨_, rfl, _⟩ := linked_takes (.refl _) (.inl rfl) htakes
      exact ⟨List.not_mem_nil, _, hlink⟩
  | parent hmissing hdir hfollowing =>
      obtain ⟨hv, hs⟩ := linked_rest hfollowing (hmissing.tree ▸ .refl _)
        (.inr (Option.some.inj hdir).symm)
      exact hrest hv hs
  | link htaken hfollowing =>
      obtain ⟨_, _, rfl⟩ := linked_takes (.refl _) (.inl rfl) htaken
      obtain ⟨hv, hs⟩ := linked_rest hfollowing htaken.keepsKinds (.inl rfl)
      exact hrest hv hs

/-- A link that leads to itself, beside the destination. -/
def selfLink : Tree := .ofEntries [([ascii "r"], .dir 0o755), ([ascii "a"], .link (ascii "a"))]

theorem selfLink_writable {loc : Loc} {n : Node} (hn : selfLink.node loc = some n) :
    readonly n.mode = false := by
  have hall : ∀ loc ∈ [[], [ascii "r"], [ascii "a"]],
      (selfLink.node loc).all (fun n => !readonly n.mode) = true := by decide +kernel
  have hmode := hall loc (Tree.mem_of_ofEntries hn)
  rw [hn] at hmode
  simpa using hmode

/-- A call on the link comes to its branch with the tree as it was. -/
theorem selfLink_entry {w before after : World} {n : Node} {relaxed : Option (OsString × Nat)}
    (hw : w.tree = selfLink)
    (h : AtEntry calm (ascii "/r") (clonePath calm (ascii "/r") fuel) (ascii "/a") w n before relaxed
      after) : n = .link (ascii "a") ∧ after.tree = selfLink := by
  cases h with
  | intro hmissing hparent hclone hstatus hrelax =>
      obtain rfl : ascii "/" = _ := Option.some.inj hparent
      obtain ⟨hsame, hok⟩ := ask_ok hstatus
      have htree := hmissing.tree.trans hw
      cases fuel with
      | zero => cases hclone
      | succ fuel =>
          obtain ⟨w', hfound, htree'⟩ : ∃ w', clonePath calm (ascii "/r") (fuel + 1) (ascii "/") _ =
              some (.ok (), w') ∧ w'.tree = _ :=
            clonePath_found (n := .dir 0o755) rfl (by rw [htree]; decide +kernel)
          obtain ⟨_, rfl⟩ := ends_unique hfound hclone
          have hn := hok n rfl
          rw [htree', htree] at hn
          have hlink : selfLink.status calm.view false (ascii "/a") = .ok (.link (ascii "a")) := by
            decide +kernel
          refine ⟨Except.ok.inj (hn.symm.trans hlink), ?_⟩
          have hbefore := hsame.tree.trans (htree'.trans htree)
          rcases relax_spec hrelax with ⟨heq, _⟩ | ⟨_, loc, m, _, _, hm, hreadonly, _⟩
          · exact heq.trans hbefore
          · rw [hbefore] at hm
            exact absurd ((selfLink_writable hm).symm.trans hreadonly) Bool.false_ne_true

/-- The call on the link never comes back. -/
theorem clonePath_selfLink (fuel : Nat) (w : World) (hw : w.tree = selfLink) :
    clonePath calm (ascii "/r") fuel (ascii "/a") w = none := by
  induction fuel generalizing w with
  | zero => rfl
  | succ fuel ih =>
      by_contra hsome
      obtain ⟨out, hrun⟩ := Option.ne_none_iff_exists'.mp hsome
      obtain ⟨r, w'⟩ := out
      have hentered {n before relaxed after ret u}
          (hentry : AtEntry calm (ascii "/r") (clonePath calm (ascii "/r") fuel) (ascii "/a") w n
            before relaxed after)
          (hends : EntryEnds calm (ascii "/r") (clonePath calm (ascii "/r") fuel) fuel (ascii "/a")
            (targetOf (ascii "/r") (ascii "/a")) n after ret u) : False := by
        obtain ⟨rfl, hafter⟩ := selfLink_entry hw hentry
        have hclone {text v r u} (hread : readLink calm (ascii "/a") after = some (.ok (.ok text), v))
            (hrun : clonePath calm (ascii "/r") fuel (linkPath (ascii "/a") text) v = some (r, u)) :
            False := by
          obtain ⟨hsame, hok⟩ := ask_ok hread
          have htext := hok text rfl
          rw [hafter] at htext
          have ha : selfLink.readLink calm.view (ascii "/a") = .ok (ascii "a") := by decide +kernel
          obtain rfl := Except.ok.inj (ha.symm.trans htext)
          have hnone := ih v (hsame.tree.trans hafter)
          have hpath : linkPath (ascii "/a") (ascii "a") = ascii "/a" := by decide +kernel
          rw [hpath, hnone] at hrun
          cases hrun
        cases hends with
        | unread _ hread =>
            obtain ⟨v, hanswer, _⟩ : ∃ v, readLink calm (ascii "/a") after =
                some (.ok (after.tree.readLink calm.view (ascii "/a")), v) ∧ v.tree = after.tree :=
              ask_answers rfl _
            have ha : selfLink.readLink calm.view (ascii "/a") = .ok (ascii "a") := by decide +kernel
            rw [hafter, ha] at hanswer
            cases (ends_unique hanswer hread).1
        | failed _ hread hrun => exact hclone hread hrun
        | unwound _ hread hrun => exact hclone hread hrun
        | link _ hread hrun _ => exact hclone hread hrun
        | dir hno _ _ => cases hno
        | file hno _ _ _ => cases hno
        | other hno _ _ => cases hno
      have hrelaxes (v : World) : ∃ relaxed v', relax calm (targetOf (ascii "/r") (ascii "/a")) v =
          some (.ok relaxed, v') := relax_answers (fun _ => rfl) _ v
      have hparent {w₁ r u} (hmissing : Missing calm (ascii "/r") (ascii "/a") w w₁)
          (hclone : clonePath calm (ascii "/r") fuel (ascii "/") w₁ = some (r, u)) :
          r = .ok () ∧ u.tree = selfLink := by
        cases fuel with
        | zero => cases hclone
        | succ fuel =>
            have htree := hmissing.tree.trans hw
            obtain ⟨w', hfound, htree'⟩ : ∃ w', clonePath calm (ascii "/r") (fuel + 1) (ascii "/") w₁ =
                some (.ok (), w') ∧ w'.tree = w₁.tree :=
              clonePath_found (n := .dir 0o755) rfl (by rw [htree]; decide +kernel)
            obtain ⟨hr, rfl⟩ := ends_unique hfound hclone
            exact ⟨hr.symm, htree'.trans htree⟩
      have hends := cloneStep_ends hrun
      rcases hends.start with ⟨n, hfound, _⟩ | ⟨_, hnone, _⟩ | ⟨dir, w₁, hmissing, hdir⟩
      · have hstatus : w.tree.status calm.view false (targetOf (ascii "/r") (ascii "/a")) = .ok n :=
          (ask_ok hfound).2 n rfl
        have hno : selfLink.status calm.view false (targetOf (ascii "/r") (ascii "/a")) =
            .error .enoent := by decide +kernel
        rw [hw, hno] at hstatus
        cases hstatus
      · cases hnone
      · obtain rfl : ascii "/" = dir := Option.some.inj hdir
        obtain ⟨u, hclone⟩ : ∃ u, clonePath calm (ascii "/r") fuel (ascii "/") w₁ =
            some (.ok (), u) := by
          rcases hmissing.ends hdir hends with hok | hclone
          · exact hok
          · obtain ⟨rfl, _⟩ := hparent hmissing hclone
            exact ⟨_, hclone⟩
        obtain ⟨_, htree⟩ := hparent hmissing hclone
        rcases hmissing.behind hdir hclone hends with ⟨e, hstatus⟩ | ⟨n, before, _, hrest⟩
        · obtain ⟨v, hanswer, _⟩ : ∃ v, symlinkMetadata calm (ascii "/a") u =
              some (.ok (u.tree.status calm.view false (ascii "/a")), v) ∧ v.tree = u.tree :=
            ask_answers rfl _
          have hlink : selfLink.status calm.view false (ascii "/a") = .ok (.link (ascii "a")) := by
            decide +kernel
          rw [htree, hlink] at hanswer
          cases (ends_unique hanswer hstatus).1
        · rcases hrest with ⟨e, hrelax⟩ | ⟨relaxed, after, hentry⟩
          · obtain ⟨relaxed, v, hrelaxed⟩ := hrelaxes before
            cases (ends_unique hrelaxed hrelax).1
          · rcases hentry.ends hends with ⟨_, _, hentryEnds⟩ | ⟨_, hentryEnds⟩ |
              ⟨_, _, hentryEnds, _⟩
            · exact hentered hentry hentryEnds
            · exact hentered hentry hentryEnds
            · exact hentered hentry hentryEnds

/-- Each call of the run is one on the link, with the tree as it was, or one on the
root directory. -/
theorem selfLink_calls {f : Nat} {s : OsString} {w v : World}
    (h : Nested calm (ascii "/r") fuel source w f s v) (hw : w.tree = selfLink)
    (hsource : source = ascii "/a" ∨ source = ascii "/") :
    v.tree = selfLink ∧ (s = ascii "/a" ∨ s = ascii "/") := by
  induction h with
  | self => exact ⟨hw, hsource⟩
  | parent hmissing hdir _ ih =>
      refine ih (hmissing.tree.trans hw) ?_
      rcases hsource with rfl | rfl
      · exact .inr (Option.some.inj hdir).symm
      · cases hdir
  | link hentry _ hread _ ih =>
      rcases hsource with rfl | rfl
      · obtain ⟨_, hafter⟩ := selfLink_entry hw hentry
        obtain ⟨hsame, hok⟩ := ask_ok hread
        have htext := hok _ rfl
        have ha : selfLink.readLink calm.view (ascii "/a") = .ok (ascii "a") := by decide +kernel
        rw [hafter, ha] at htext
        obtain rfl := Except.ok.inj htext
        exact ih (hsame.tree.trans hafter) (.inl (by decide +kernel))
      · cases hentry with
        | intro _ hparent _ _ _ => cases hparent

theorem selfLink_copies {w : World} (hw : w.tree = selfLink) :
    CopiesReturn calm (ascii "/r") (ascii "/a") w := by
  intro fuel f s v u hnested hcopies
  obtain ⟨hv, hs⟩ := selfLink_calls hnested hw (.inl rfl)
  cases hcopies with
  | intro hentry hlink _ _ _ =>
      rcases hs with rfl | rfl
      · obtain ⟨rfl, _⟩ := selfLink_entry hv hentry
        cases hlink
      · cases hentry with
        | intro _ hparent _ _ _ => cases hparent

theorem selfLink_endless :
    ¬ ∀ (env : Env) (root source : OsString) (w : World) (locs : List Loc),
      (∀ loc n, w.tree.node loc = some n → loc ∈ locs) → CopiesReturn env root source w →
      ∃ fuel out, clonePath env root fuel source w = some out := by
  intro h
  obtain ⟨fuel, out, hrun⟩ := h calm (ascii "/r") (ascii "/a") (World.start selfLink ⟨true, true⟩)
    [[], [ascii "r"], [ascii "a"]] (fun _ _ hn => Tree.mem_of_ofEntries hn) (selfLink_copies rfl)
  rw [clonePath_selfLink fuel _ rfl] at hrun
  cases hrun

end Sample

end File
end DracutInstall

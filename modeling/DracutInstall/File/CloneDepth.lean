/-
How deep the calls of `clone_path` are nested.

A run with a higher bound on the depth is the same run where the lower one let it
come back.  A measure that each followed link lowers keeps the depth finite, since
a parent is a shorter path; a run of finite depth comes back if its copies do.
-/
import DracutInstall.File.CloneTree
import DracutInstall.File.CopyTermination

namespace DracutInstall
namespace File

open Rust Process UnixPath FileTree

variable {env : Env} {root source target : OsString} {fuel fuel' : Nat}

/-! ## Runs with a higher bound -/

theorem copyFile_below (hle : fuel ≤ fuel') :
    Approx (copyFile env fuel source target) (copyFile env fuel' source target) := by
  intro w out h
  rw [copyFile] at h ⊢
  dsimp only at h ⊢
  cases hcopy : copy (copyKernel env (env.answers w.copies) w.tree source target) fuel w.flags with
  | none =>
      rw [hcopy] at h
      cases h
  | some c =>
      rw [hcopy] at h
      rw [copy_mono hle hcopy]
      exact h

section Approx

variable {clone clone' : OsString → Run Unit} (hclone : ∀ p, Approx (clone p) (clone' p))
  (hle : fuel ≤ fuel')

include hclone hle

theorem cloneEntry_below (n : Node) : Approx (cloneEntry env root clone fuel source target n)
    (cloneEntry env root clone' fuel' source target n) := by
  rw [cloneEntry, cloneEntry]
  split
  · refine (Approx.refl _).bind fun r => (Approx.refl _).bind fun text => ?_
    exact (hclone _).bind fun _ => .refl _
  · refine (Approx.refl _).bind fun isDir => ?_
    split
    · exact .refl _
    · refine (Approx.refl _).bind fun isFile => ?_
      split
      · exact (Approx.refl _).bind fun _ => (copyFile_below hle).bind fun _ => .refl _
      · exact .refl _

theorem cloneStep_below :
    Approx (cloneStep env root clone fuel source) (cloneStep env root clone' fuel' source) := by
  rw [cloneStep, cloneStep]
  refine (Approx.refl _).bind fun _ => (Approx.refl _).bind fun r => ?_
  cases r with
  | ok n => exact .refl _
  | error e =>
      cases parent source with
      | none => exact .refl _
      | some dir =>
          refine (hclone dir).bind fun _ => (Approx.refl _).bind fun r => ?_
          refine (Approx.refl _).bind fun n => (Approx.refl _).bind fun relaxed => ?_
          exact (cloneEntry_below hclone hle n).bind fun _ => .refl _

end Approx

theorem clonePath_below (hle : fuel ≤ fuel') :
    Approx (clonePath env root fuel source) (clonePath env root fuel' source) := by
  induction fuel generalizing fuel' source with
  | zero => exact approx_outOfFuel _
  | succ fuel ih =>
      obtain ⟨more, rfl⟩ : ∃ n, fuel' = n + 1 := ⟨fuel' - 1, by omega⟩
      exact cloneStep_below (fun p => ih (Nat.le_of_succ_le_succ hle)) (Nat.le_of_succ_le_succ hle)

/-- Two bounds that let a run come back let it come back with the same. -/
theorem clonePath_agree {w : World} {out out' : Outcome CloneError Unit × World}
    (h : clonePath env root fuel source w = some out)
    (h' : clonePath env root fuel' source w = some out') : out = out' := by
  rcases Nat.le_total fuel fuel' with hle | hle
  · exact Option.some.inj ((clonePath_below hle w out h).symm.trans h')
  · exact Option.some.inj (h.symm.trans (clonePath_below hle w out' h'))

theorem AtEntry.below {w before after : World} {n : Node} {relaxed : Option (OsString × Nat)}
    (hle : fuel ≤ fuel')
    (h : AtEntry env root (clonePath env root fuel) source w n before relaxed after) :
    AtEntry env root (clonePath env root fuel') source w n before relaxed after := by
  cases h with
  | intro hmissing hparent hclone hstatus hrelax =>
      exact .intro hmissing hparent (clonePath_below hle _ _ hclone) hstatus hrelax

/-- A call comes to one branch, whatever the bounds. -/
theorem AtEntry.agree {w before after before' after' : World} {n n' : Node}
    {relaxed relaxed' : Option (OsString × Nat)}
    (h : AtEntry env root (clonePath env root fuel) source w n before relaxed after)
    (h' : AtEntry env root (clonePath env root fuel') source w n' before' relaxed' after') :
    n = n' ∧ before = before' ∧ relaxed = relaxed' ∧ after = after' := by
  rcases Nat.le_total fuel fuel' with hle | hle
  · exact (h.below hle).unique h'
  · exact h.unique (h'.below hle)

theorem Nested.raise {f m : Nat} {s : OsString} {w v : World}
    (h : Nested env root fuel source w f s v) : Nested env root (fuel + m) source w (f + m) s v := by
  induction h with
  | self fuel source w => exact .self _ _ _
  | parent hmissing hparent _ ih =>
      rw [Nat.add_right_comm]
      exact .parent hmissing hparent ih
  | link hentry hlink hread _ ih =>
      rw [Nat.add_right_comm]
      exact .link (hentry.below (Nat.le_add_right _ _)) hlink hread ih

/-! ## The depth of a run -/

/-- Whatever the bound, no more than `N` calls are nested in each other. -/
def DepthAtMost (env : Env) (root : OsString) (N : Nat) (source : OsString) (w : World) : Prop :=
  ∀ fuel f s v, Nested env root fuel source w f s v → fuel ≤ f + N

/-- Where `P k` holds of a call, `P k` holds of the call on its parent, and `P j` with a
lower `j` of the call on what its link leads to: the depth is finite. -/
theorem depth_of_descent (P : Nat → OsString → World → Prop)
    (hparent : ∀ k source dir w w₁, P k source w → Missing env root source w w₁ →
      parent source = some dir → P k dir w₁)
    (hlink : ∀ k source fuel n before relaxed after text w w₁, P k source w →
      AtEntry env root (clonePath env root fuel) source w n before relaxed after →
      n.isLink = true → readLink env source after = some (.ok (.ok text), w₁) →
      ∃ j < k, P j (linkPath source text) w₁) :
    ∀ k source w, P k source w → ∃ N, DepthAtMost env root N source w := by
  intro k
  induction k using Nat.strongRecOn with
  | ind k ihLinks =>
  have hlength (len : Nat) : ∀ source w, source.length = len → P k source w →
      ∃ N, DepthAtMost env root N source w := by
    induction len using Nat.strongRecOn with
    | ind len ihParents =>
    intro source w hlen hP
    by_cases hdirs : ∃ dir w₁, Missing env root source w w₁ ∧ parent source = some dir
    · obtain ⟨dir, w₁, hmissing, hdir⟩ := hdirs
      have hshort : dir.length < len := by
        rw [← hlen]
        exact parent_length hdir
      obtain ⟨N₁, hN₁⟩ := ihParents dir.length hshort dir w₁ rfl (hparent k _ _ _ _ hP hmissing hdir)
      have hparents {fuel f s v dir' w₁'} (hmissing' : Missing env root source w w₁')
          (hdir' : parent source = some dir') (h : Nested env root fuel dir' w₁' f s v) :
          fuel ≤ f + N₁ := by
        obtain rfl := hmissing.unique hmissing'
        obtain rfl := Option.some.inj (hdir.symm.trans hdir')
        exact hN₁ _ _ _ _ h
      by_cases hlinks : ∃ fuel n before relaxed after text w₂,
          AtEntry env root (clonePath env root fuel) source w n before relaxed after ∧
            n.isLink = true ∧ readLink env source after = some (.ok (.ok text), w₂)
      · obtain ⟨fuel, n, before, relaxed, after, text, w₂, hentry, hislink, hread⟩ := hlinks
        obtain ⟨j, hj, hPj⟩ := hlink k _ _ _ _ _ _ _ _ _ hP hentry hislink hread
        obtain ⟨N₂, hN₂⟩ := ihLinks j hj _ _ hPj
        refine ⟨max N₁ N₂ + 1, fun fuel' f s v hnested => ?_⟩
        cases hnested with
        | self => omega
        | parent hmissing' hdir' hnested =>
            have hle := hparents hmissing' hdir' hnested
            omega
        | link hentry' hislink' hread' hnested =>
            obtain ⟨rfl, rfl, rfl, rfl⟩ := hentry.agree hentry'
            obtain ⟨htext, rfl⟩ := ends_unique hread hread'
            obtain rfl := Except.ok.inj (Outcome.ok.inj htext)
            have hle := hN₂ _ _ _ _ hnested
            omega
      · refine ⟨N₁ + 1, fun fuel' f s v hnested => ?_⟩
        cases hnested with
        | self => omega
        | parent hmissing' hdir' hnested =>
            have hle := hparents hmissing' hdir' hnested
            omega
        | link hentry' hislink' hread' _ =>
            exact absurd ⟨_, _, _, _, _, _, _, hentry', hislink', hread'⟩ hlinks
    · refine ⟨0, fun fuel' f s v hnested => ?_⟩
      cases hnested with
      | self => omega
      | parent hmissing hdir _ => exact absurd ⟨_, _, hmissing, hdir⟩ hdirs
      | link hentry _ _ _ =>
          cases hentry with
          | intro hmissing hdir _ _ _ => exact absurd ⟨_, _, hmissing, hdir⟩ hdirs
  exact fun source w hP => hlength source.length source w rfl hP

/-! ## Runs that come back -/

theorem relax_returns (env : Env) (target : OsString) (w : World) :
    ∃ out, relax env target w = some out := by
  rw [relax]
  cases parent target with
  | none => exact ⟨_, rfl⟩
  | some dir =>
      obtain ⟨a, w₁, hask⟩ := ask_returns env (Tree.status · env.view true dir) w
      refine bind_returns hask fun a ha => ?_
      cases a with
      | error e => exact ⟨_, rfl⟩
      | ok n =>
          dsimp only
          split
          · obtain ⟨b, w₂, hset⟩ := change_returns env []
              (Tree.chmod · env.view dir (n.mode ||| 0o222)) w₁
            refine bind_returns hset fun b _ => ?_
            cases b with
            | error e => exact ⟨_, rfl⟩
            | ok u => exact ⟨_, rfl⟩
          · exact ⟨_, rfl⟩

theorem restore_returns (env : Env) (relaxed : Option (OsString × Nat)) (w : World) :
    ∃ out, restore env relaxed w = some out := by
  cases relaxed with
  | none => exact ⟨_, rfl⟩
  | some perms =>
      obtain ⟨b, w₁, hset⟩ := change_returns env [] (Tree.chmod · env.view perms.1 perms.2) w
      refine bind_returns hset fun b _ => ?_
      cases b with
      | error e => exact ⟨_, rfl⟩
      | ok u => exact ⟨_, rfl⟩

theorem lnR_returns (env : Env) (path target : OsString) (w : World) :
    ∃ out, lnR env path target w = some out := by
  rw [lnR]
  cases convertAbsRel path target with
  | none => exact ⟨_, rfl⟩
  | some text =>
      obtain ⟨b, w₁, hmade⟩ := change_returns env [.link text target]
        (Tree.symlink · env.view text target) w
      exact bind_returns hmade fun b _ => ⟨_, rfl⟩

/-- A branch comes back if the call on what the link leads to and the copy do. -/
theorem cloneEntry_returns {clone : OsString → Run Unit} {n : Node} {w : World}
    (hlink : ∀ text w₁, n.isLink = true → readLink env source w = some (.ok (.ok text), w₁) →
      ∃ out, clone (linkPath source text) w₁ = some out)
    (hcopy : ∀ w₁ w₂, n.isLink = false → isDir env source w = some (.ok false, w₁) →
      isFile env source w₁ = some (.ok true, w₂) →
      ∃ out, copyFile env fuel source target (w₂.line (.clonePathCopy source target)) = some out) :
    ∃ out, cloneEntry env root clone fuel source target n w = some out := by
  rw [cloneEntry]
  cases hislink : n.isLink with
  | true =>
      obtain ⟨a, w₁, hread⟩ := ask_returns env (Tree.readLink · env.view source) w
      rw [if_pos rfl, cloneLink]
      refine bind_returns hread fun a ha => ?_
      cases ha
      cases a with
      | error e => exact ⟨_, rfl⟩
      | ok text =>
          obtain ⟨out, hclone⟩ := hlink text w₁ hislink hread
          have hrest : ∃ out, (clone (linkPath source text) >>= fun _ =>
              eprintln (.clonePathSymlink (linkPath source text) target) >>= fun _ =>
                eprintln (.lnRSymlink (targetOf root (linkPath source text)) target) >>= fun _ =>
                  lnR env (targetOf root (linkPath source text)) target) w₁ = some out :=
            bind_returns hclone fun _ _ => lnR_returns _ _ _ _
          exact hrest
  | false =>
      obtain ⟨a, w₁, hask⟩ := ask_returns env (Tree.status · env.view true source) w
      have hdir : isDir env source w = some (.ok (a.toOption.elim false Node.isDir), w₁) :=
        bind_eq_some.mpr (.inl ⟨_, _, hask, rfl⟩)
      rw [if_neg Bool.false_ne_true]
      refine bind_returns hdir fun b hb => ?_
      cases hb
      cases hisDir : a.toOption.elim false Node.isDir with
      | true =>
          obtain ⟨b, w₂, hmade⟩ := change_returns env [.dir target]
            (Tree.mkdir · env.view target (env.created n.mode)) (w₁.line (.clonePathMkdir source target))
          have hrest : ∃ out, (createDir env target n.mode >>= fun r =>
              pure (r.mapError CloneError.mkdir)) (w₁.line (.clonePathMkdir source target)) =
              some out := bind_returns hmade fun _ _ => ⟨_, rfl⟩
          exact hrest
      | false =>
          rw [hisDir] at hdir
          obtain ⟨a', w₂, hask'⟩ := ask_returns env (Tree.status · env.view true source) w₁
          have hfile : isFile env source w₁ =
              some (.ok (a'.toOption.elim false Node.isFile), w₂) :=
            bind_eq_some.mpr (.inl ⟨_, _, hask', rfl⟩)
          refine bind_returns hfile fun b hb => ?_
          cases hb
          cases hisFile : a'.toOption.elim false Node.isFile with
          | true =>
              rw [hisFile] at hfile
              obtain ⟨out, hcopied⟩ := hcopy w₁ w₂ hislink hdir hfile
              have hrest : ∃ out, (copyFile env fuel source target >>= fun r =>
                  pure (r.mapError CloneError.copy)) (w₂.line (.clonePathCopy source target)) =
                  some out := bind_returns hcopied fun _ _ => ⟨_, rfl⟩
              exact hrest
          | false => exact ⟨_, rfl⟩

/-- A call comes back if the call on its parent and its branch do. -/
theorem cloneStep_returns {clone : OsString → Run Unit} {w : World}
    (hparent : ∀ dir w₁, Missing env root source w w₁ → parent source = some dir →
      ∃ out, clone dir w₁ = some out)
    (hentry : ∀ n before relaxed after, AtEntry env root clone source w n before relaxed after →
      ∃ out, cloneEntry env root clone fuel source (targetOf root source) n after = some out) :
    ∃ out, cloneStep env root clone fuel source w = some out := by
  obtain ⟨a, w₁, hask⟩ := ask_returns env (Tree.status · env.view false (targetOf root source))
    (w.line (.clonePath source (targetOf root source)))
  have hline : eprintln (.clonePath source (targetOf root source)) w =
      some (.ok (), w.line (.clonePath source (targetOf root source))) := rfl
  rw [cloneStep]
  refine bind_returns hline fun _ _ => bind_returns hask fun a' ha => ?_
  cases ha
  cases a with
  | ok n => exact ⟨_, rfl⟩
  | error e =>
      have hmissing : Missing env root source w w₁ := ⟨e, hask⟩
      cases hdir : parent source with
      | none => exact ⟨_, rfl⟩
      | some dir =>
          obtain ⟨out, hclone⟩ := hparent dir w₁ hmissing hdir
          refine bind_returns hclone fun u hu => ?_
          obtain ⟨b, w₃, hstatus⟩ := ask_returns env (Tree.status · env.view false source) out.2
          refine bind_returns hstatus fun b' hb => ?_
          cases hb
          cases b with
          | error e => exact ⟨_, rfl⟩
          | ok n =>
              obtain ⟨out', hrelax⟩ := relax_returns env (targetOf root source) w₃
              have hrest : ∃ out, (relax env (targetOf root source) >>= fun relaxed =>
                  cloneEntry env root clone fuel source (targetOf root source) n >>= fun ret =>
                    restore env relaxed >>= fun _ => orFail id ret) w₃ = some out := by
                refine bind_returns hrelax fun relaxed hrelaxed => ?_
                obtain ⟨r, w₄⟩ := out'
                obtain rfl : r = .ok relaxed := hrelaxed
                obtain ⟨r₁, w₂⟩ := out
                obtain rfl : r₁ = .ok u := hu
                obtain ⟨out₂, hends⟩ := hentry n w₃ relaxed w₄
                  (.intro hmissing hdir hclone hstatus hrelax)
                refine bind_returns hends fun ret _ => ?_
                obtain ⟨out₃, hrestore⟩ := restore_returns env relaxed out₂.2
                refine bind_returns hrestore fun _ _ => ?_
                cases ret with
                | ok u => exact ⟨_, rfl⟩
                | error e => exact ⟨_, rfl⟩
              exact hrest

theorem MakesCopy.below {w u : World} (hle : fuel ≤ fuel')
    (h : MakesCopy env root fuel source w u) : MakesCopy env root fuel' source w u := by
  cases h with
  | intro hentry hlink hdir hfile hcopies =>
      exact .intro (hentry.below hle) hlink hdir hfile hcopies

/-- Each copy the run makes comes back. -/
def CopiesReturn (env : Env) (root source : OsString) (w : World) : Prop :=
  ∀ fuel f s v u, Nested env root fuel source w (f + 1) s v → MakesCopy env root f s v u →
    ∃ m out, copyFile env m s (targetOf root s) u = some out

/-- A branch comes back from some bound on. -/
theorem AtEntry.returns {w before after : World} {n : Node} {relaxed : Option (OsString × Nat)}
    (hentry : AtEntry env root (clonePath env root fuel) source w n before relaxed after)
    (hlink : ∀ text w₁, n.isLink = true → readLink env source after = some (.ok (.ok text), w₁) →
      ∃ m out, clonePath env root m (linkPath source text) w₁ = some out)
    (hcopies : CopiesReturn env root source w) :
    ∃ m, ∀ g, m ≤ g → ∃ out, cloneEntry env root (clonePath env root g) g source
      (targetOf root source) n after = some out := by
  by_cases hread : ∃ text w₁, n.isLink = true ∧
      readLink env source after = some (.ok (.ok text), w₁)
  · obtain ⟨text, w₁, hislink, hread⟩ := hread
    obtain ⟨m, out, hclone⟩ := hlink text w₁ hislink hread
    refine ⟨m, fun g hle => cloneEntry_returns ?_ ?_⟩
    · intro text' w₁' _ hread'
      obtain ⟨htext, rfl⟩ := ends_unique hread hread'
      obtain rfl := Except.ok.inj (Outcome.ok.inj htext)
      exact ⟨out, clonePath_below hle _ _ hclone⟩
    · intro _ _ hother _ _
      cases hislink.symm.trans hother
  · by_cases hcopy : ∃ w₁ w₂, n.isLink = false ∧ isDir env source after = some (.ok false, w₁) ∧
        isFile env source w₁ = some (.ok true, w₂)
    · obtain ⟨w₁, w₂, hislink, hdir, hfile⟩ := hcopy
      obtain ⟨m, out, hcopied⟩ := hcopies (fuel + 1) fuel source w _ (.self _ _ _)
        (.intro hentry hislink hdir hfile rfl)
      refine ⟨m, fun g hle => cloneEntry_returns ?_ ?_⟩
      · intro text w₁' hother _
        cases hislink.symm.trans hother
      · intro w₁' w₂' _ hdir' hfile'
        obtain ⟨_, rfl⟩ := ends_unique hdir hdir'
        obtain ⟨_, rfl⟩ := ends_unique hfile hfile'
        exact ⟨out, copyFile_below hle _ _ hcopied⟩
    · refine ⟨0, fun g _ => cloneEntry_returns ?_ ?_⟩
      · intro text w₁ hislink hread'
        exact absurd ⟨text, w₁, hislink, hread'⟩ hread
      · intro w₁ w₂ hislink hdir hfile
        exact absurd ⟨w₁, w₂, hislink, hdir, hfile⟩ hcopy

/-- A run of finite depth whose copies come back comes back. -/
theorem clonePath_returns {N : Nat} {w : World} (hdepth : DepthAtMost env root N source w)
    (hcopies : CopiesReturn env root source w) :
    ∃ fuel out, clonePath env root fuel source w = some out := by
  induction N generalizing source w with
  | zero =>
      refine ⟨1, cloneStep_returns ?_ ?_⟩
      · intro dir w₁ hmissing hdir
        have hle := hdepth 1 0 dir w₁ (.parent hmissing hdir (.self _ _ _))
        omega
      · intro n before relaxed after hentry
        cases hentry with
        | intro hmissing hdir _ _ _ =>
            have hle := hdepth 1 0 _ _ (.parent hmissing hdir (.self _ _ _))
            omega
  | succ N ih =>
      have hparent {dir w₁} (hmissing : Missing env root source w w₁)
          (hdir : parent source = some dir) :
          ∃ m out, clonePath env root m dir w₁ = some out := by
        refine ih (fun fuel f s v h => ?_) fun fuel f s v u h => ?_
        · have hle := hdepth _ f s v (.parent hmissing hdir h)
          omega
        · exact hcopies _ f s v u (.parent hmissing hdir h)
      have hentered {fuel n before relaxed after}
          (hentry : AtEntry env root (clonePath env root fuel) source w n before relaxed after) :
          ∃ m, ∀ g, m ≤ g → ∃ out, cloneEntry env root (clonePath env root g) g source
            (targetOf root source) n after = some out := by
        refine hentry.returns (fun text w₁ hislink hread => ?_) hcopies
        have hraised {fuel' f s v} (h : Nested env root fuel' (linkPath source text) w₁ f s v) :
            Nested env root (fuel' + fuel + 1) source w (f + fuel) s v :=
          .link (hentry.below (Nat.le_add_left fuel fuel')) hislink hread h.raise
        refine ih (fun fuel' f s v h => ?_) fun fuel' f s v u h hcopy => ?_
        · have hle := hdepth _ _ s v (hraised h)
          omega
        · have hnested := hraised h
          rw [Nat.add_right_comm f 1 fuel] at hnested
          exact hcopies _ _ s v u hnested (hcopy.below (Nat.le_add_right f fuel))
      have hbound : ∃ m, ∀ g, m ≤ g → ∀ dir w₁, Missing env root source w w₁ →
          parent source = some dir → ∃ out, clonePath env root g dir w₁ = some out := by
        by_cases hdirs : ∃ dir w₁, Missing env root source w w₁ ∧ parent source = some dir
        · obtain ⟨dir, w₁, hmissing, hdir⟩ := hdirs
          obtain ⟨m, out, hclone⟩ := hparent hmissing hdir
          refine ⟨m, fun g hle dir' w₁' hmissing' hdir' => ?_⟩
          obtain rfl := hmissing.unique hmissing'
          obtain rfl := Option.some.inj (hdir.symm.trans hdir')
          exact ⟨out, clonePath_below hle _ _ hclone⟩
        · exact ⟨0, fun g _ dir w₁ hmissing hdir => absurd ⟨dir, w₁, hmissing, hdir⟩ hdirs⟩
      obtain ⟨m₁, hm₁⟩ := hbound
      by_cases hentries : ∃ fuel n before relaxed after,
          AtEntry env root (clonePath env root fuel) source w n before relaxed after
      · obtain ⟨fuel, n, before, relaxed, after, hentry⟩ := hentries
        obtain ⟨m₂, hm₂⟩ := hentered hentry
        refine ⟨max m₁ m₂ + 1, cloneStep_returns (hm₁ _ (Nat.le_max_left _ _)) ?_⟩
        intro n' before' relaxed' after' hentry'
        obtain ⟨rfl, rfl, rfl, rfl⟩ := hentry.agree hentry'
        exact hm₂ _ (Nat.le_max_right _ _)
      · refine ⟨m₁ + 1, cloneStep_returns (hm₁ _ (Nat.le_refl _)) ?_⟩
        intro n before relaxed after hentry
        exact absurd ⟨_, n, before, relaxed, after, hentry⟩ hentries

end File
end DracutInstall

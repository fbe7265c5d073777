/-
The places a path comes to, and what is there of them below the destination.

As long as the entries below the destination are a `Replica` of those at a set `K` of
places, the target of a path is found just if `K` has all places the path comes to
(`Seat.found_iff`), and names a place below the destination if `K` has those of its
directory (`Seat.names`).  Whether the entry of the path can be made there is then a
question about the source tree, and what is made adds its place (`Grown`).
-/
import DracutInstall.File.CloneFaithful
import DracutInstall.File.CloneGrowth
import DracutInstall.Lib.TreeReplica

namespace DracutInstall
namespace File

open ByteCodec Rust Process UnixPath FileTree Tree

variable {v : View} {env : Env} {root p dir text name : OsString} {S C C₁ C' : Tree}
  {R d l loc : Loc} {K : Set Loc} {j k f : Nat} {through : Bool} {cs : List Component} {m n : Node}

/-! ## Places -/

/-- The places a lookup of an absolute path comes to. -/
def places (S : Tree) (p : OsString) : Set Loc := fun l => Visits S [] (body p) l

theorem places_nil (hbody : body p = []) : places S p = ∅ := by
  apply Set.eq_empty_of_forall_notMem
  intro l hl
  have hl : Visits S [] (body p) l := hl
  rw [hbody] at hl
  cases hl

/-- The entry at the end of a path that is no link adds its own place. -/
theorem places_entry (hbody : body p = body dir ++ [.normal name])
    (hd : Walks S true false [] (body dir) d) (hm : S.node (d ++ [name]) = some m)
    (hlink : m.isLink = false) : places S p = insert (d ++ [name]) (places S dir) := by
  ext l
  show Visits S [] (body p) l ↔ l ∈ insert (d ++ [name]) (places S dir)
  rw [hbody, Visits.concat_iff hd hm, Set.mem_insert_iff]
  constructor
  · rintro (h | h | ⟨text, rfl, _⟩)
    · exact .inr h
    · exact .inl h
    · cases hlink
  · rintro (h | h)
    · exact .inr (.inl h)
    · exact .inl h

/-- What a link leads through are places of its directory, or of the path it stands for. -/
theorem visits_link (hparent : parent p = some dir) (hd : Walks S true false [] (body dir) d) :
    l ∈ places S dir ∨ Visits S (linkBase d text) (steps text) l ↔
      l ∈ places S dir ∪ places S (linkPath p text) := by
  rw [Set.mem_union, linkPath, hparent, linkBase]
  by_cases htext : hasRoot text = true
  · rw [if_pos htext, if_pos htext]
    exact or_congr_right ⟨Visits.body_of_steps, fun h => h.append_left _⟩
  · rw [if_neg htext, if_neg htext]
    have hpushed : body (push dir text) = body dir ++ body text :=
      body_push (Bool.not_eq_true _ ▸ htext)
    show _ ↔ _ ∨ Visits S [] (body (push dir text)) l
    rw [hpushed]
    constructor
    · rintro (h | h)
      · exact .inl h
      · exact .inr (.behind hd h.body_of_steps)
    · rintro (h | h)
      · exact .inl h
      · rcases h.split with h | ⟨mid, hmid, h⟩
        · exact .inl h
        · obtain rfl := hd.unique hmid
          exact .inr (h.append_left _)

/-- A link adds its place and those of the path it stands for. -/
theorem places_link (hparent : parent p = some dir) (hbody : body p = body dir ++ [.normal name])
    (hd : Walks S true false [] (body dir) d) (hm : S.node (d ++ [name]) = some (.link text)) :
    places S p = insert (d ++ [name]) (places S dir ∪ places S (linkPath p text)) := by
  ext l
  show Visits S [] (body p) l ↔ _
  rw [hbody, Visits.concat_iff hd hm, Set.mem_insert_iff, ← visits_link hparent hd]
  constructor
  · rintro (h | h | ⟨text', htext, h⟩)
    · exact .inr (.inl h)
    · exact .inl h
    · obtain rfl := Node.link.inj htext
      exact .inr (.inr h)
  · rintro (h | h | h)
    · exact .inr (.inl h)
    · exact .inl h
    · exact .inr (.inr ⟨text, rfl, h⟩)

/-- A link is not on the way of the path it stands for, behind its directory. -/
theorem link_not_visited (hparent : parent p = some dir) (hd : Walks S true false [] (body dir) d)
    (hm : S.node (d ++ [name]) = some (.link text)) (hnew : d ++ [name] ∉ places S dir)
    (hleads : ∃ y, Walks S true false d [.normal name] y) :
    d ++ [name] ∉ places S (linkPath p text) := by
  obtain ⟨y, hy⟩ := hleads
  obtain ⟨k, hk⟩ := hy.walksIn
  obtain ⟨j, rfl, hj⟩ := hk.link_last hm
  -- a lookup that came to the link again would follow fewer links than it does
  have hagain {base} (hbase : linkBase d text = base) :
      ¬ Visits S base (body text) (d ++ [name]) := by
    rintro hvisits
    have hbody := hj.body
    rw [hbase] at hbody
    obtain ⟨i, hi, z, hz⟩ := hvisits.fewer rfl hm hbody
    have heq := hz.count_unique hj
    omega
  intro h
  have h : Visits S [] (body (linkPath p text)) (d ++ [name]) := h
  rw [linkPath, hparent, Option.getD_some] at h
  by_cases htext : hasRoot text = true
  · rw [if_pos htext] at h
    exact hagain (if_pos htext) h
  · rw [if_neg htext, body_push (Bool.not_eq_true _ ▸ htext)] at h
    rcases h.split with h | ⟨mid, hmid, h⟩
    · exact hnew h
    · obtain rfl := hd.unique hmid
      exact hagain (if_neg htext) h

/-! ## The destination -/

/-- An empty directory to clone into, which its path leads to through `j` links. -/
structure Seat (v : View) (root : OsString) (S : Tree) (j : Nat) (R : Loc) : Prop where
  named : root ≠ []
  leads : WalksIn S j (start v root) (steps root) R
  dir : S.isDir R = true
  empty : ∀ name, S.node (R ++ [name]) = none

namespace Seat

variable (hs : Seat v root S j R)

include hs

theorem isDir_start : S.isDir (start v root) = true :=
  hs.leads.walks.isDir_start (steps_ne_nil root)

theorem isDir_start_of (hext : Extends S C) : C.isDir (start v root) = true :=
  hext.isDir hs.isDir_start

/-- A lookup of a target goes through the destination. -/
theorem target_below {follow missing : Bool} (hext : Extends S C) (hcs : cs ≠ [])
    (h : Walks C follow missing (start v root) (body root ++ cs) loc) :
    Walks C follow missing R cs loc := by
  obtain ⟨mid, hroot, hrest⟩ := h.split hcs
  obtain rfl := ((leads_body hs.leads.walks).mono hext).unique hroot
  exact hrest

theorem target_leads (hext : Extends S C) (h : WalksIn C k R cs loc) :
    WalksIn C (j + k) (start v root) (body root ++ cs) loc :=
  (hs.leads.body.keepsKinds hext.keepsKinds).append h

/-- Where the places a lookup visits are there, it leads below the destination as in the
source tree. -/
theorem below (hR : Replica S C R K) (hroot : .rootDir ∉ cs) (hstays : StaysBelow S [] cs)
    {i : Nat} {y : Loc} (hwalk : WalksIn S i [] cs y) (hplaces : ∀ l, Visits S [] cs l → l ∈ K) :
    ∃ i' ≤ i, WalksIn C i' R cs (R ++ y) ∧ (S.isDir y = true → C.isDir (R ++ y) = true) := by
  have hdirR := hR.mirror.keeps.isDir hs.dir
  have hthere : C.node (R ++ []) ≠ none := by
    obtain ⟨mode, hn⟩ := isDir_iff.mp hdirR
    rw [List.append_nil, hn]
    exact Option.some_ne_none _
  obtain ⟨i', hi', hbelow⟩ := hR.forth hroot hstays hwalk hplaces hthere
  rw [List.append_nil] at hbelow
  obtain ⟨n, hn, _⟩ := hbelow.walks.ends hdirR
  refine ⟨i', hi', hbelow, hR.isDir ?_⟩
  rw [hn]
  exact Option.some_ne_none n

section Found

variable (hR : Replica S C R K) (hsound : Sound S p)

include hR hsound

/-- What is found of a path: the places it comes to are there. -/
theorem places_subset {n : Node} (h : C.status v false (targetOf root p) = .ok n) :
    places S p ⊆ K := by
  intro l hl
  obtain ⟨loc, hwalk, hn⟩ := status_ok h
  rw [hsound.pushed.start, hsound.pushed.steps] at hwalk
  have hbelow := hs.target_below hR.mirror.keeps (steps_ne_nil p) hwalk
  rw [steps] at hbelow
  split at hbelow
  · have hbody := hbelow.curDir_last.1
    rw [← List.append_nil R] at hbody
    exact hR.known (rootDir_not_mem_body p) hsound.stays hbody hl
  · rw [List.append_nil] at hbelow
    exact hR.found (rootDir_not_mem_body p) hsound.stays hbelow (by rw [hn]; simp) hl

/-- Where they are there, the path leads below the destination as in the source tree. -/
theorem leads_below (hleads : LeadsIn v S k p) (hplaces : places S p ⊆ K) :
    ∃ i ≤ k, ∃ y, WalksIn S i [] (steps p) y ∧ ∃ i' ≤ i, WalksIn C i' R (body p) (R ++ y) ∧
      (S.isDir y = true → C.isDir (R ++ y) = true) := by
  obtain ⟨_, i, hi, y, hwalk⟩ := hleads
  rw [start, if_pos hsound.absolute] at hwalk
  exact ⟨i, hi, y, hwalk, hs.below hR (rootDir_not_mem_body p) hsound.stays hwalk.body hplaces⟩

theorem found_iff (hleads : LeadsIn v S k p) (hk : j + k ≤ v.limit) :
    (∃ n, C.status v false (targetOf root p) = .ok n) ↔ places S p ⊆ K := by
  constructor
  · rintro ⟨n, hn⟩
    exact hs.places_subset hR hsound hn
  · intro hplaces
    obtain ⟨i, hi, y, hwalk, i', hi', hbelow, hdir⟩ := hs.leads_below hR hsound hleads hplaces
    have hsteps : WalksIn C i' R (steps p) (R ++ y) := by
      rw [steps] at hwalk ⊢
      split
      · rename_i hblank
        rw [if_pos hblank] at hwalk
        have hend := hdir hwalk.walks.curDir_last.2
        exact hbelow.append (.curDir hend (.done _))
      · rw [List.append_nil]
        exact hbelow
    obtain ⟨n, hn⟩ := status_walksIn.mpr ⟨hsound.pushed.target_ne_nil hs.named, by
      rw [hsound.pushed.start]
      exact hR.mirror.keeps.isDir hs.isDir_start, j + i', by omega, R ++ y, by
      rw [hsound.pushed.start, hsound.pushed.steps]
      exact hs.target_leads hR.mirror.keeps hsteps⟩
    exact status_unfollowed hn

/-- The place the target names, once those of the directory are there. -/
theorem names (hleads : LeadsIn v S k p) (hk : j + k ≤ v.limit) (hplaces : places S dir ⊆ K)
    (hbody : body p = body dir ++ [.normal name]) :
    ∃ d m, Spot S C R p dir d name m ∧ Names v C (targetOf root p) (R ++ (d ++ [name])) ∧
      C.isDir (R ++ d) = true := by
  obtain ⟨_, i, hi, y, hwalk⟩ := hleads
  rw [start, if_pos hsound.absolute] at hwalk
  have hall := hwalk.body
  rw [hbody] at hall
  obtain ⟨a, b, d, hab, hd, hone⟩ := hall.split
  have hstays := hsound.stays
  rw [hbody] at hstays
  obtain ⟨i', hi', hbelow, hdirC⟩ := hs.below hR (rootDir_not_mem_body dir) hstays.left hd hplaces
  have hdirC := hdirC (hone.walks.isDir_start (List.cons_ne_nil _ _))
  obtain ⟨m, hm⟩ : ∃ m, S.node (d ++ [name]) = some m := by
    cases hone with
    | entry _ hn _ _ => exact ⟨_, hn⟩
    | link _ hn _ => exact ⟨_, hn⟩
  refine ⟨d, m, ⟨hbody, hd.walks, hbelow.walks, hm⟩, ?_, hdirC⟩
  rw [← List.append_assoc]
  have hleads : WalksIn C (j + i') (start v (targetOf root p)) (body root ++ body dir) (R ++ d) := by
    rw [hsound.pushed.start]
    exact hs.target_leads hR.mirror.keeps hbelow
  refine .intro ?_ (by omega) hleads hdirC
  rw [hsound.pushed.body, hbody, List.append_assoc]

end Found

end Seat

/-! ## What can be made there -/

/-- The place of a file is free, or a file like it is there. -/
theorem opens_names (hR : Replica S C R K) (hsound : Sound S p) (hblank : endsBlank p = false)
    (hp : Spot S C R p dir d name m) (hm : m.isFile = true)
    (hnames : Names env.view C (targetOf root p) (R ++ (d ++ [name]))) :
    openTo env C (targetOf root p) = .ok (R ++ (d ++ [name])) := by
  have hlookup := lookup_body true true hsound.pushed hblank hnames
  cases hn : C.node (R ++ (d ++ [name])) with
  | none =>
      rw [openTo, hlookup, hnames.walk_new hn]
      exact if_neg (Bool.not_eq_true _ ▸ isDir_of_none hn)
  | some n =>
      obtain ⟨m', hm', hmatch⟩ := hR.mirror.entry _ _ hn
      obtain rfl := Option.some.inj (hp.node.symm.trans hm')
      cases m with
      | file mode content =>
          have hlink : n.isLink = false := hmatch.isLink
          have hdir : n.isDir = false := (hmatch.like hlink).isDir
          rw [openTo, hlookup, hnames.walk_plain hn hlink]
          refine if_neg ?_
          rw [Tree.isDir, hn, Option.map_some, Option.getD_some, hdir]
          exact Bool.false_ne_true
      | dir mode => cases hm
      | link text => cases hm
      | special mode => cases hm

namespace Seat

variable (hs : Seat v root S j R)

include hs

/-- A link can be made if what it leads to is not its directory, or above it on the way
there, and nothing is in its place. -/
theorem canLink_iff {path : OsString} (hsound : Sound S p) (hpath : Sound S path)
    (hblank : endsBlank p = false) (hbody : body p = body dir ++ [.normal name])
    (hnames : Names v C (targetOf root p) loc) :
    CanLink v C (targetOf root path) (targetOf root p) ↔
      ¬ body path <+: body dir ∧ C.node loc = none := by
  obtain ⟨dirT, hdirT, hdirBody, hdirLead⟩ := hsound.pushed.parent_target hs.named hbody
  have hlead : leadComponents (targetOf root path) = leadComponents dirT := by
    rw [hdirLead, leadComponents, hpath.pushed.lead hs.named, leadComponents]
  obtain ⟨text, htext, _⟩ := convertAbsRel_body hdirT hlead
  have hempty : text = [] ↔ body path <+: body dir := by
    rw [← List.prefix_append_right_inj (body root), ← hpath.pushed.body, ← hdirBody,
      ← convertAbsRel_eq_nil_iff hdirT hlead, htext, Option.some_inj]
  have hlookup := lookup_body false true hsound.pushed hblank hnames
  constructor
  · rintro ⟨text', htext', hne, loc', hloc, hnone⟩
    obtain rfl := Option.some.inj (htext.symm.trans htext')
    rw [hlookup] at hloc
    obtain rfl := hnames.eq_of_walks (walk_sound hloc)
    exact ⟨fun h => hne (hempty.mpr h), hnone⟩
  · rintro ⟨hother, hnone⟩
    refine ⟨text, htext, fun h => hother (hempty.mp h), loc, ?_, hnone⟩
    rw [hlookup]
    exact hnames.walk_new hnone

theorem canCopy_iff {u : World} {mode mode' : Nat} {content : List UInt8}
    (hR : Replica S u.tree R K) (hsound : Sound S p)
    (hp : Spot S u.tree R p dir d name (.file mode' content))
    (hfrom : u.tree.status env.view true p = .ok (.file mode content))
    (hnames : Names env.view u.tree (targetOf root p) (R ++ (d ++ [name]))) :
    CanCopy env p (targetOf root p) u ↔ Whole env content := by
  have hopen := opens_names hR hsound (endsBlank_of_status hfrom rfl) hp rfl hnames
  have hother : u.tree.lookup env.view true false p ≠ .ok (R ++ (d ++ [name])) := by
    intro hlookup
    have hwalk := lookup_ok hlookup
    rw [start, if_pos hsound.absolute] at hwalk
    have heq := ((hp.ends hsound rfl).mono hR.mirror.keeps).unique hwalk
    have hnone := node_below_empty hs.empty (l := d ++ [name]) (by simp)
    rw [← heq, hp.node] at hnone
    cases hnone
  rw [CanCopy, kernelAt_source hfrom hopen hother]
  exact ⟨fun h => h.2, fun h => ⟨⟨_, hopen⟩, h⟩⟩

end Seat

/-! ## What a call adds -/

/-- The entries below the destination are at the places `K`, and those that are gone
through lead where they do in the source tree. -/
structure Grown (S C : Tree) (R : Loc) (through : Bool) (K : Set Loc) (C' : Tree) : Prop where
  keeps : Extends C C'
  filled : Filled C' R K
  replica : through = true → Replica S C' R K

theorem grown_of_replica (h : Replica S C R K) (through : Bool) : Grown S C R through K C :=
  ⟨.refl C, h.made, fun _ => h⟩

theorem Grown.alike {C₂ : Tree} (h : Grown S C R through K C₁) (hC : Alike C₁ C₂) :
    Grown S C R through K C₂ :=
  ⟨h.keeps.trans hC.forth, h.filled.alike hC, fun hthrough => (h.replica hthrough).alike hC⟩

theorem Grown.trans {K' : Set Loc} {C₂ : Tree} (hkeeps : Extends C C₁)
    (h : Grown S C₁ R through K' C₂) : Grown S C R through K' C₂ :=
  ⟨hkeeps.trans h.keeps, h.filled, h.replica⟩

/-- An entry that is no link, like that of the source tree. -/
theorem Grown.put (h : Grown S C R through K C₁) (hfits : C₁.fits (R ++ (d ++ [name])) = true)
    (hm : S.node (d ++ [name]) = some m) (hlike : m.Like n) (hlink : m.isLink = false)
    (hold : ∀ n', C₁.node (R ++ (d ++ [name])) = some n' → n'.Like n) :
    Grown S C R through (insert (d ++ [name]) K) (C₁.put (R ++ (d ++ [name])) n) where
  keeps := h.keeps.trans (put_extends hold)
  filled := h.filled.put hfits
  replica hthrough := by
    have hplain : n.isLink = false := hlike.isLink.trans hlink
    have hislink {P : Prop} (hn : n.isLink = true) : P := by
      rw [hplain] at hn
      cases hn
    refine (h.replica hthrough).put hfits hm (.inr hlike) hold ?_ hislink fun _ _ hn _ => hislink hn
    rintro text l rfl _
    cases hlink

/-- Behind the place where the two paths part, the path a link stands for is a part of what
the text of the link asks for. -/
theorem leads_down {c us vs : List Component} {names m : Loc} {i : Nat} {y : Loc}
    (hparent : parent p = some dir) (hu : body dir = c ++ us)
    (hv : body (linkPath p text) = c ++ vs) (hdiffer : ∀ j < us.length, vs[j]? ≠ us[j]?)
    (hlen : names.length = us.length) (hm : Walks S true false [] c m)
    (hwalk : WalksIn S i (linkBase (m ++ names) text) (steps text) y) :
    ∃ i' ≤ i, WalksIn S i' m vs y := by
  have hbody := hwalk.body
  rw [linkPath, hparent, Option.getD_some] at hv
  rw [linkBase] at hbody
  by_cases htext : hasRoot text = true
  · rw [if_pos htext] at hv hbody
    rw [hv] at hbody
    obtain ⟨a, b, mid, hab, hfirst, hrest⟩ := hbody.split
    obtain rfl := hm.unique hfirst.walks
    exact ⟨b, by omega, hrest⟩
  · rw [if_neg htext] at hv hbody
    rw [body_push (Bool.not_eq_true _ ▸ htext), hu, List.append_assoc] at hv
    have hvs := List.append_cancel_left hv
    cases us with
    | nil =>
        obtain rfl : names = [] := List.length_eq_zero_iff.mp hlen
        rw [List.append_nil] at hbody
        rw [← hvs, List.nil_append]
        exact ⟨i, Nat.le_refl i, hbody⟩
    | cons u us =>
        refine absurd ?_ (hdiffer 0 (Nat.succ_pos _))
        rw [← hvs]
        rfl

/-- The text of a link that is made leads from its directory to where that of the source
tree leads, through no more links. -/
theorem link_leads_below (hR : Replica S C R K) (hroot : root ≠ []) (hsound : Sound S p)
    (hpath : Sound S (linkPath p text)) (hlink : LinkSound S p (linkPath p text))
    (hparent : parent p = some dir) (hd : Walks S true false [] (body dir) d)
    (hdir : C.isDir (R ++ d) = true) (hplaces : places S (linkPath p text) ⊆ K) {i : Nat} {y : Loc}
    (hwalk : WalksIn S i (linkBase d text) (steps text) y) {rel : OsString}
    (hrel : convertAbsRel (targetOf root (linkPath p text)) (targetOf root p) = some rel)
    (hne : rel ≠ []) :
    hasRoot rel = false ∧ ∃ i' ≤ i, WalksIn C i' (R ++ d) (steps rel) (R ++ y) := by
  obtain ⟨hrelative, c, us, vs, m, names, rfl, hlen, hu, hv, hdiffer, hm, hsteps⟩ :=
    hlink.text hroot hsound hpath hparent hd hrel hne
  obtain ⟨i', hi', hdown⟩ := leads_down hparent hu hv hdiffer hlen hm hwalk
  refine ⟨hrelative, ?_⟩
  rw [hsteps]
  rw [← List.append_assoc] at hdir ⊢
  have hup := WalksIn.climb names hdir
  have hstays := hpath.stays
  rw [hv] at hstays
  have hmem : .rootDir ∉ vs := fun hin =>
    rootDir_not_mem_body (linkPath p text) (hv ▸ List.mem_append_right _ hin)
  have hvisited : ∀ l, Visits S m vs l → l ∈ K := by
    intro l hl
    apply hplaces
    show Visits S [] (body (linkPath p text)) l
    rw [hv]
    exact .behind hm hl
  have hthere : C.node (R ++ m) ≠ none := by
    obtain ⟨n, hn, _⟩ := hup.walks.ends hdir
    rw [hn]
    exact Option.some_ne_none n
  obtain ⟨i'', hi'', hbelow⟩ := hR.forth hmem (hstays.behind hm) hdown hvisited hthere
  exact ⟨0 + i'', by omega, hup.append hbelow⟩

/-- `mkdir` at a place that is free. -/
theorem makes_dir {mode mode' : Nat} (through : Bool) (hR : Replica S C R K)
    (hp : Spot S C R p dir d name (.dir mode))
    (hnames : Names v C (targetOf root p) (R ++ (d ++ [name])))
    (hmade : C.mkdir v (targetOf root p) mode' = .ok C') :
    endsBlank (trimSeps (targetOf root p)) = false ∧ d ++ [name] ∉ K ∧
      Grown S C R through (insert (d ++ [name]) K) C' := by
  obtain ⟨hblank, hnone⟩ := (canMakeDir_iff hnames).mp (mkdir_iff.mp ⟨_, hmade⟩)
  obtain ⟨loc, hwalk, _, hput⟩ := mkdir_ok hmade
  obtain rfl := hnames.eq_of_walks hwalk
  refine ⟨hblank, fun hmem => (hR.made _ (by simp)).mpr hmem hnone, ?_⟩
  rw [hput]
  exact (grown_of_replica hR through).put (hnames.fits hnone) hp.node rfl rfl
    fun n' hn' => by cases hnone.symm.trans hn'

/-- `symlink` at a place that is free once what the link leads to has been cloned. -/
theorem Seat.makes_link {C₂ : Tree} (hs : Seat v root S j R) (h : Grown S C R through K C₂)
    (hsound : Sound S p) (hpath : Sound S (linkPath p text))
    (hlink : through = true → LinkSound S p (linkPath p text)) (hblank : endsBlank p = false)
    (hparent : parent p = some dir) (hp : Spot S C R p dir d name (.link text))
    (hnames : Names v C (targetOf root p) (R ++ (d ++ [name])))
    (hdir : C.isDir (R ++ d) = true) (hplaces : places S dir ∪ places S (linkPath p text) ⊆ K)
    {rel : OsString}
    (hrel : convertAbsRel (targetOf root (linkPath p text)) (targetOf root p) = some rel)
    (hmade : C₂.symlink v rel (targetOf root p) = .ok C') :
    ¬ body (linkPath p text) <+: body dir ∧ d ++ [name] ∉ K ∧
      Grown S C R through (insert (d ++ [name]) K) C' := by
  have hnames₂ := hnames.keepsKinds h.keeps.keepsKinds
  obtain ⟨loc, hwalk, hnone, hput, hne⟩ := symlink_ok hmade
  obtain rfl := hnames₂.eq_of_walks hwalk
  obtain ⟨_, hplace⟩ := symlink_iff.mp ⟨_, hmade⟩
  obtain ⟨hother, _⟩ := (hs.canLink_iff hsound hpath hblank hp.body hnames₂).mp
    ⟨rel, hrel, hne, hplace⟩
  refine ⟨hother, fun hmem => (h.filled _ (by simp)).mpr hmem hnone, ?_⟩
  have hold : ∀ n', C₂.node (R ++ (d ++ [name])) = some n' → n'.Like (.link rel) := by
    intro n' hn'
    cases hnone.symm.trans hn'
  have hfits := hnames₂.fits hnone
  rw [hput]
  refine ⟨h.keeps.trans (put_extends hold), h.filled.put hfits, fun hthrough => ?_⟩
  refine (h.replica hthrough).put hfits hp.node (.inl ⟨rfl, rfl⟩) hold ?_ ?_ ?_
  · intro text' l htext hl
    obtain rfl := Node.link.inj htext
    exact hplaces ((visits_link hparent hp.leads).mp (.inr hl))
  · intro _
    obtain ⟨y, _, hone⟩ := hp.leads_one hsound
    obtain ⟨k, hk⟩ := hone.walksIn
    exact ⟨k, y, hk⟩
  · intro k y _ hwalk
    obtain ⟨i, rfl, hthere⟩ := hwalk.link_last hp.node
    have hdir₂ := h.keeps.isDir hdir
    obtain ⟨hrelative, i', hi', hleads⟩ := link_leads_below (h.replica hthrough) hs.named hsound
      hpath (hlink hthrough) hparent hp.leads hdir₂
      (fun l hl => hplaces (Set.mem_union_right _ hl)) hthere hrel hne
    have hadded : (C₂.put (R ++ (d ++ [name])) (.link rel)).node ((R ++ d) ++ [name]) =
        some (Node.link rel) := by
      rw [put_node hfits, List.append_assoc, if_pos rfl]
    refine ⟨i' + 1, by omega, .link ((put_extends hold).isDir hdir₂) hadded ?_⟩
    rw [List.append_nil, linkBase, if_neg (by rw [hrelative]; exact Bool.false_ne_true)]
    exact hleads.keepsKinds (put_extends hold).keepsKinds

theorem Env.Faultless.steady (h : env.Faultless) (i : Nat) : File.Steady (env.answers i) where
  seeks := (h.answers i).seeks
  fallbackFirst a b _ _ hfallback := by
    have hmoves := (h.answers i).moves b (Nat.zero_le b)
    cases ht : (env.answers i).transfer b with
    | moved n =>
        rw [ht] at hfallback
        cases hfallback
    | errno e =>
        rw [ht] at hmoves
        cases hmoves
    | writeFailed n w e =>
        rw [ht] at hmoves
        cases hmoves

/-- A copy to the place of a file. -/
theorem Seat.makes_file {u u' : World} {mode mode' : Nat} {content : List UInt8} (through : Bool)
    (hs : Seat env.view root S j R) (hcalm : env.Faultless) (hR : Replica S u.tree R K)
    (hsound : Sound S p) (hplain : NoSpecial u.tree)
    (hp : Spot S u.tree R p dir d name (.file mode' content))
    (hnames : Names env.view u.tree (targetOf root p) (R ++ (d ++ [name])))
    (hdir : u.tree.isDir (R ++ d) = true)
    (hfrom : u.tree.status env.view true p = .ok (.file mode content))
    (hcopy : copyFile env f p (targetOf root p) u = some (.ok (.ok ()), u')) :
    Whole env content ∧ Grown S u.tree R through (insert (d ++ [name]) K) u'.tree := by
  have hcan := (copyFile_ok_iff hcalm hplain hfrom rfl hcopy).mp rfl
  refine ⟨(hs.canCopy_iff hR hsound hp hfrom hnames).mp hcan, ?_⟩
  obtain ⟨_, l, mode₁, content₁, loc, hwalk, hnode, hto, hno, hput⟩ :=
    copyFile_ok (hcalm.steady _) hcopy
  -- the entry copied is the one of the source tree, and the one written is another
  rw [start, if_pos hsound.absolute] at hwalk
  obtain rfl := ((hp.ends hsound rfl).mono hR.mirror.keeps).unique hwalk
  obtain ⟨n', hn', hlike⟩ := hR.mirror.keeps _ _ hp.node
  obtain rfl := Option.some.inj (hn'.symm.trans hnode)
  obtain ⟨_, rfl⟩ := Node.file.inj hlike
  have hopen := opens_names hR hsound (endsBlank_of_status hfrom rfl) hp rfl hnames
  obtain rfl := (lookup_ok (openTo_ok hopen).1).unique hto
  have hold : ∀ n', u.tree.node (R ++ (d ++ [name])) = some n' →
      (Node.file mode' content).Like n' := by
    intro n' hn'
    obtain ⟨m', hm', hmatch⟩ := hR.mirror.entry _ _ hn'
    obtain rfl := Option.some.inj (hp.node.symm.trans hm')
    exact hmatch.like hmatch.isLink
  have hne : R ++ (d ++ [name]) ≠ d ++ [name] := by
    intro heq
    have hnone := node_below_empty hs.empty (l := d ++ [name]) (by simp)
    rw [heq, hp.node] at hnone
    cases hnone
  obtain ⟨mode₂, hput⟩ := hput hne fun n' hn' => by
    have hlike := hold n' hn'
    cases n' with
    | file mode₃ content₃ => rfl
    | dir mode₃ => cases hlike
    | link text => cases hlike
    | special mode₃ => cases hlike
  have hfits : u.tree.fits (R ++ (d ++ [name])) = true := by
    rw [← List.append_assoc] at hno ⊢
    exact fits_concat.mpr ⟨hdir, hp.entryName, hno⟩
  rw [hput]
  exact (grown_of_replica hR through).put hfits hp.node rfl rfl fun n' hn' => (hold n' hn').symm

end File
end DracutInstall

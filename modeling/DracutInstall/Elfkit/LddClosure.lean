/-
The vector `ldd` returns is closed under the dependencies of its objects, for the
objects `recurse` returned `Ok` for, as long as two things do not happen.

A path that was probed and does not exist is in `visited` like one that was put
on the queue, and meeting it ends the search all the same.  And a name the cache
lists counts as found whether or not one of the listed paths exists.
-/
import DracutInstall.Elfkit.Encoding
import DracutInstall.Elfkit.LddRuns

namespace DracutInstall
namespace Elfkit

open ByteCodec Rust UnixPath WorkList

namespace Ldd

variable {ldd : Ldd}

/-- A path under which a name can be found. -/
inductive Candidate (ldd : Ldd) (lpaths : Finset OsString) (dep : OsString) : OsString → Prop
  | inDirs (dir : OsString) : dir ∈ lpaths → Candidate ldd lpaths dep (push dir dep)
  | inCache (vals : List OsString) (f : OsString) : ldd.listed dep = some vals → f ∈ vals →
      Candidate ldd lpaths dep f
  | inDefault (dir : OsString) : dir ∈ ldd.defaultLibdir → Candidate ldd lpaths dep (push dir dep)

/-- The path exists, and is among the results or below `dest_path` already. -/
def Provided (ldd : Ldd) (res : List OsString) (path : OsString) : Prop :=
  ldd.fs.pathExists path = true ∧ (path ∈ res ∨ ldd.inDest path = true)

/-- Every name an object needs is provided under some candidate, if `recurse` on
the object returned `Ok`. -/
def Closed (ldd : Ldd) (s : ldd.State) (res : List OsString) : Prop :=
  ∀ w ∈ s.workers, w.prog = .done (.returned w.item.path (.ok ())) →
    ∀ sc, ldd.fs.scan w.item.path w.item.lpaths = .ok sc →
      ∀ dep ∈ sc.deps, ∃ c, Candidate ldd sc.lpaths dep c ∧ ldd.Provided res (ldd.fs.spelling c)

/-- A path which a loop over directories meets in `visited` exists. -/
def LiveHits (ldd : Ldd) (shared : Shared ldd.fs) (_ : Item) : Op ldd.fs → Prop
  | .insert .directory path => path ∈ shared.visited → ldd.fs.pathExists path = true
  | _ => True

/-- A name that none of the object's directories has and the cache lists is listed
with a path that exists. -/
def LiveListing (ldd : Ldd) (item : Item) : Prop :=
  ∀ sc, ldd.fs.scan item.path item.lpaths = .ok sc → ∀ dep ∈ sc.deps,
    (∀ dir ∈ sc.lpaths, ldd.fs.pathExists (ldd.candidate dep dir) = false) →
    ∀ vals, ldd.listed dep = some vals → ∃ f ∈ vals, ldd.fs.pathExists (ldd.fs.spelling f) = true

instance (shared : Shared ldd.fs) (item : Item) (op : Op ldd.fs) :
    Decidable (ldd.LiveHits shared item op) :=
  match op with
  | .insert .directory path =>
      inferInstanceAs (Decidable (path ∈ shared.visited → ldd.fs.pathExists path = true))
  | .insert .cache _ => isTrue trivial
  | .canonGet _ => isTrue trivial
  | .canonPut _ _ => isTrue trivial
  | .enqueue _ => isTrue trivial

/-! ## How a search ends -/

section Search

variable {lpaths : Finset OsString} {js : List OsString} {es : Calls ldd.fs}

/-- A loop over directories that ends early met its last candidate, or found it. -/
theorem Probed.last (h : Probed ldd lpaths js es true) :
    ∃ j ∈ js, tried .directory j false ∈ es ∨
      (tried .directory j true ∈ es ∧ ldd.installable j = true) := by
  generalize hb : true = b at h
  induction h with
  | exhausted => cases hb
  | hit j js => exact ⟨j, List.mem_cons_self, .inl List.mem_cons_self⟩
  | found j js hinst => exact ⟨j, List.mem_cons_self, .inr ⟨List.mem_cons_self, hinst⟩⟩
  | missed j _ _ ih =>
      obtain ⟨i, hi, hlast⟩ := ih hb
      refine ⟨i, List.mem_cons_of_mem _ hi, ?_⟩
      rcases hlast with ht | ⟨ht, hinst⟩
      · exact .inl (List.mem_cons_of_mem _ ht)
      · exact .inr ⟨List.mem_cons_of_mem _ ht, hinst⟩

/-- A loop over directories that does not end early tried every candidate. -/
theorem Probed.all (h : Probed ldd lpaths js es false) :
    ∀ j ∈ js, tried .directory j true ∈ es := by
  generalize hb : false = b at h
  induction h with
  | exhausted => exact fun j hj => nomatch hj
  | hit j js => cases hb
  | found j js _ => cases hb
  | missed j _ _ ih =>
      intro i hi
      rcases List.mem_cons.mp hi with rfl | hi
      · exact List.mem_cons_self
      · exact List.mem_cons_of_mem _ (ih hb i hi)

theorem ProbedListed.all (h : ProbedListed ldd lpaths js es) :
    ∀ j ∈ js, ∃ new, tried .cache j new ∈ es := by
  induction h with
  | nil => exact fun j hj => nomatch hj
  | hit j _ ih =>
      intro i hi
      rcases List.mem_cons.mp hi with rfl | hi
      · exact ⟨false, List.mem_cons_self⟩
      · exact (ih i hi).imp fun _ => List.mem_cons_of_mem _
  | found j _ _ ih =>
      intro i hi
      rcases List.mem_cons.mp hi with rfl | hi
      · exact ⟨true, List.mem_cons_self⟩
      · exact (ih i hi).imp fun _ ht => List.mem_cons_of_mem _ (List.mem_cons_of_mem _ ht)
  | missed j _ _ ih =>
      intro i hi
      rcases List.mem_cons.mp hi with rfl | hi
      · exact ⟨true, List.mem_cons_self⟩
      · exact (ih i hi).imp fun _ => List.mem_cons_of_mem _

/-- Every name is searched for with success when the whole object is. -/
theorem Resolved.each {dirs deps : List OsString} {r : Except RecurseError Unit}
    (h : Resolved ldd dirs lpaths deps es r) (hr : r = .ok ()) :
    ∀ dep ∈ deps, ∃ es', (∀ e ∈ es', e ∈ es) ∧ Searched ldd dirs lpaths dep es' true := by
  induction h with
  | nil => exact fun dep hdep => nomatch hdep
  | @found dep deps es es' r hsearch _ ih =>
      intro d hd
      rcases List.mem_cons.mp hd with rfl | hd
      · exact ⟨es, fun e he => List.mem_append_left _ he, hsearch⟩
      · obtain ⟨es'', hsub, hd⟩ := ih hr d hd
        exact ⟨es'', fun e he => List.mem_append_right _ (hsub e he), hd⟩
  | missing dep deps _ => cases hr

end Search

/-! ## Runs -/

section Run

variable {files args : List OsString} {schedule : List (Choice Iter)} {s : ldd.State}
  {res : List OsString}

/-- A path that was tried and exists is provided. -/
theorem Ran.provided (h : ldd.Ran files args schedule s) (hres : res.Perm (collected s))
    {w : Worker (Op ldd.fs) (Res ldd.fs) Item Iter Out} (hw : w ∈ s.workers) {stage : Stage}
    {path : OsString} {new : Bool} (ht : tried stage path new ∈ w.log)
    (hexists : ldd.fs.pathExists path = true) : ldd.Provided res path := by
  refine ⟨hexists, ?_⟩
  cases hdest : ldd.inDest path with
  | true => exact .inr rfl
  | false =>
      have hinst : ldd.installable path = true := by rw [installable, hexists, hdest]; rfl
      exact .inl (hres.mem_iff.mpr (h.mem_collected.mpr ⟨h.tried_taken hw ht hinst, hdest⟩))

/-- The last candidate of a loop that ends early is provided. -/
theorem Ran.provided_of_probed (h : ldd.Ran files args schedule s)
    (hres : res.Perm (collected s))
    (hhits : Meets ldd.system ldd.LiveHits (ldd.start args) schedule)
    {w : Worker (Op ldd.fs) (Res ldd.fs) Item Iter Out} (hw : w ∈ s.workers)
    {lpaths : Finset OsString} {js : List OsString} {es : Calls ldd.fs}
    (hes : ∀ e ∈ es, e ∈ w.log) (hprobed : Probed ldd lpaths js es true) :
    ∃ j ∈ js, ldd.Provided res j := by
  obtain ⟨j, hj, ht | ⟨ht, hinst⟩⟩ := hprobed.last
  · obtain ⟨sh, hlive, hin⟩ := h.hit_cond hhits hw (hes _ ht)
    exact ⟨j, hj, h.provided hres hw (hes _ ht) (hlive hin)⟩
  · exact ⟨j, hj, h.provided hres hw (hes _ ht) (Bool.and_eq_true_iff.mp hinst).1⟩

theorem Ran.provided_of_searched (h : ldd.Ran files args schedule s)
    (hres : res.Perm (collected s))
    (hhits : Meets ldd.system ldd.LiveHits (ldd.start args) schedule)
    {w : Worker (Op ldd.fs) (Res ldd.fs) Item Iter Out} (hw : w ∈ s.workers)
    {iter : Iter} {lpaths : Finset OsString} {dep : OsString} {es : Calls ldd.fs}
    (hes : ∀ e ∈ es, e ∈ w.log) (hsearched : Searched ldd (iter.val lpaths) lpaths dep es true)
    (hlisted : (∀ dir ∈ lpaths, ldd.fs.pathExists (ldd.candidate dep dir) = false) →
      ∀ vals, ldd.listed dep = some vals →
        ∃ f ∈ vals, ldd.fs.pathExists (ldd.fs.spelling f) = true) :
    ∃ c, Candidate ldd lpaths dep c ∧ ldd.Provided res (ldd.fs.spelling c) := by
  have hiter (dir : OsString) : dir ∈ iter.val lpaths ↔ dir ∈ lpaths := (iter.property lpaths).2 dir
  cases hsearched with
  | inDirs hdirs =>
      obtain ⟨j, hj, hprovided⟩ := h.provided_of_probed hres hhits hw hes hdirs
      obtain ⟨dir, hdir, rfl⟩ := List.mem_map.mp hj
      exact ⟨_, .inDirs dir ((hiter dir).mp hdir), hprovided⟩
  | inDefault hdirs hnone hdefault =>
      obtain ⟨j, hj, hprovided⟩ := h.provided_of_probed hres hhits hw
        (fun e he => hes e (List.mem_append_right _ he)) hdefault
      obtain ⟨dir, hdir, rfl⟩ := List.mem_map.mp hj
      exact ⟨_, .inDefault dir hdir, hprovided⟩
  | @inCache es es' vals hdirs hsome hvals =>
      by_cases hdead : ∀ dir ∈ lpaths, ldd.fs.pathExists (ldd.candidate dep dir) = false
      · obtain ⟨f, hf, hexists⟩ := hlisted hdead vals hsome
        obtain ⟨new, ht⟩ := hvals.all _ (List.mem_map_of_mem hf)
        exact ⟨f, .inCache vals f hsome hf,
          h.provided hres hw (hes _ (List.mem_append_right _ ht)) hexists⟩
      · simp only [not_forall, Bool.not_eq_false] at hdead
        obtain ⟨dir, hdir, hexists⟩ := hdead
        have ht := hdirs.all _ (List.mem_map_of_mem ((hiter dir).mpr hdir))
        exact ⟨_, .inDirs dir hdir,
          h.provided hres hw (hes _ (List.mem_append_left _ ht)) hexists⟩

/-- In a run that meets no dead path in `visited` and no dead listing, the result
is closed. -/
theorem ldd_closed (h : ldd.Ran files args schedule s) (hres : res.Perm (collected s))
    (hhits : Meets ldd.system ldd.LiveHits (ldd.start args) schedule)
    (hlisting : ∀ w ∈ s.workers, ldd.LiveListing w.item) : ldd.Closed s res := by
  intro w hw hok sc hscan dep hdep
  obtain ⟨out, hout, hworked⟩ := h.worked hw
  obtain rfl : Out.returned w.item.path (.ok ()) = out := by
    rw [hok] at hout
    exact Prog.done.inj hout
  have hsub := visible_subset w.log
  generalize visible w.log = es at hworked hsub
  cases hworked with
  | @searched sc' _ _ _ hscan' hres' =>
      obtain rfl : sc = sc' := Outcome.ok.inj (hscan.symm.trans hscan')
      obtain ⟨es', hes', hsearched⟩ := hres'.each rfl dep hdep
      exact h.provided_of_searched hres hhits hw (fun e he => hsub (hes' e he)) hsearched
        (hlisting w hw sc hscan dep hdep)

end Run

end Ldd

/-! ## Two small systems -/

namespace Sample

theorem systemV_mem : 0 ∈ abiCodes := by decide

theorem dyn_mem : 3 ∈ elfTypeCodes := by decide

theorem i386_mem : 3 ∈ machineCodes := by decide

/-- A 32-bit object with a dynamic table over a string table. -/
def object (entries : List (Nat × Nat)) (table : List UInt8) : List UInt8 :=
  let dynamic := entries.flatMap fun e => toBytes .little 4 e.1 ++ toBytes .little 4 e.2
  let header : Header :=
    { identMagic := elfMagic, identClass := .class32, identEndianness := .littleEndian,
      identVersion := 1, identAbi := ⟨0, systemV_mem⟩, identAbiversion := 0, etype := ⟨3, dyn_mem⟩,
      machine := ⟨3, i386_mem⟩, version := 1, entry := 0, phoff := 0, shoff := 52,
      flags := Bitflags.empty, ehsize := 52, phentsize := 32, phnum := 0, shentsize := 40,
      shnum := 2, shstrndx := 1 }
  let sections : List SectionHeader :=
    [{ SectionHeader.default with
        shtype := SectionType.dynamic, offset := 132, size := UInt64.ofNat dynamic.length, link := 1 },
     { SectionHeader.default with
        shtype := SectionType.strtab, offset := UInt64.ofNat (132 + dynamic.length),
        size := UInt64.ofNat table.length }]
  header.encode (List.replicate 7 0) ++
    sections.flatMap (SectionHeader.encode .class32 .little) ++ dynamic ++ table

/-- An object that needs one library. -/
def needing (name : String) : List UInt8 := object [(1, 1), (0, 0)] (0 :: ascii name)

/-- Two objects that need the library `x`. -/
def twoObjects (libs : List (OsString × List UInt8)) (hlibs : ∀ lib ∈ libs, parent lib.1 ≠ none) :
    Ldd where
  fs := FileSystem.plain [[], [ascii "lib64"], [ascii "lib64", ascii "dyninst"]]
    ((ascii "/a", needing "x") :: (ascii "/b", needing "x") :: libs) (by decide) (by
      intro file hfile
      rcases List.mem_cons.mp hfile with rfl | hfile
      · decide
      · rcases List.mem_cons.mp hfile with rfl | hfile
        · decide
        · exact hlibs file hfile)
  ldSoCache := none
  defaultLibdir := standardLibdirs
  destPath := ascii "/dest"

def args : List OsString := [ascii "/a", ascii "/b"]

noncomputable def iter : Ldd.Iter := Ldd.Iter.ofLists [[]] (by simp)

/-- Nowhere: the second object finds the dead ends of the first in `visited`. -/
def nowhere : Ldd := twoObjects [] (by simp)

/-- `recurse` returned `Ok` for the item. -/
def succeeded {ldd : Ldd} (item : Item) (s : ldd.State) : Bool :=
  s.workers.any fun w => decide (w.item = item) &&
    match w.prog with
    | .done (.returned path (.ok ())) => decide (path = item.path)
    | _ => false

theorem succeeded_worker {ldd : Ldd} {item : Item} {s : ldd.State} (h : succeeded item s = true) :
    ∃ w ∈ s.workers, w.item = item ∧ w.prog = .done (.returned item.path (.ok ())) := by
  obtain ⟨w, hw, hitem⟩ := List.any_eq_true.mp h
  obtain ⟨hitem, hprog⟩ := Bool.and_eq_true_iff.mp hitem
  refine ⟨w, hw, of_decide_eq_true hitem, ?_⟩
  split at hprog
  · rename_i path hp
    rw [hp, of_decide_eq_true hprog]
  · cases hprog

theorem nowhere_candidate {c : OsString} (h : Ldd.Candidate nowhere ∅ (ascii "x") c) :
    nowhere.fs.pathExists (nowhere.fs.spelling c) = false := by
  cases h with
  | inDirs dir hdir => cases hdir
  | inCache vals f hvals _ => cases hvals
  | inDefault dir hdir =>
      have hall : ∀ dir ∈ standardLibdirs,
          nowhere.fs.pathExists (nowhere.fs.spelling (push dir (ascii "x"))) = false := by
        decide +kernel
      exact hall dir hdir

theorem nowhere_not_closed :
    ∃ schedule s, nowhere.Ran args args schedule s ∧ ¬ nowhere.Closed s (Ldd.collected s) := by
  obtain ⟨s, hran, hb⟩ := Ldd.Ran.exists_of_ended
    [.take 0 iter, .run 0, .run 0, .run 0, .run 0, .run 0, .run 0, .take 0 iter, .run 1, .run 1]
    (fun s : nowhere.State => succeeded ⟨ascii "/b", ∅⟩ s)
    (show args.mapM nowhere.fs.canonicalizeDir = some args by decide +kernel) (by decide +kernel)
  refine ⟨_, s, hran, fun hclosed => ?_⟩
  obtain ⟨w, hw, hitem, hprog⟩ := succeeded_worker hb
  have hscan : nowhere.fs.scan (ascii "/b") ∅ = .ok ⟨∅, [ascii "x"]⟩ := by decide +kernel
  have hfound := hclosed w hw (hitem ▸ hprog)
  rw [hitem] at hfound
  obtain ⟨c, hc, hexists, _⟩ := hfound _ hscan (ascii "x") List.mem_cons_self
  rw [nowhere_candidate hc] at hexists
  cases hexists

/-- In the first default directory: the second object meets the path of the first. -/
def somewhere : Ldd :=
  twoObjects [(ascii "/lib64/dyninst/x", object [(0, 0)] [])] (by decide)

theorem somewhere_closed :
    ∃ schedule s, somewhere.Ran args args schedule s ∧ succeeded ⟨ascii "/b", ∅⟩ s = true ∧
      somewhere.Closed s (Ldd.collected s) := by
  obtain ⟨s, hran, hb⟩ := Ldd.Ran.exists_of_ended
    [.take 0 iter, .run 0, .run 0, .run 0, .run 0, .take 0 iter, .run 1, .run 1, .take 0 iter]
    (fun s : somewhere.State => succeeded ⟨ascii "/b", ∅⟩ s)
    (show args.mapM somewhere.fs.canonicalizeDir = some args by decide +kernel) (by decide +kernel)
  refine ⟨_, s, hran, hb, Ldd.ldd_closed hran (List.Perm.refl _) (by decide +kernel) ?_⟩
  intro w _ sc _ dep _ _ vals hvals
  cases hvals

end Sample
end Elfkit
end DracutInstall

/-
What `clone_path` creates lies below the destination, if no path it is called with
leads above the root.

Everything that is created goes back to a call, whose lines are in the log:
`Justified` keeps that along a run.  `clonePath_contained` reads the paths and the
texts off the lines.
-/
import DracutInstall.File.ClonePath

namespace DracutInstall
namespace File

open ByteCodec Rust Process UnixPath FileTree

variable {env : Env} {root : OsString}

/-! ## Lines on the log -/

/-- A path with one separator at its front that does not lead above the root. -/
def inside (source : OsString) : Bool := !hasRoot (source.drop 1) && staysInside 0 (body source)

/-- The directory of a link is at least as deep as there are places at which it
differs from the path the link leads to, and what that path has left does not lead
above the root either. -/
def linkInside (source path : OsString) : Bool :=
  (parent source).all fun dir =>
    staysInside 0 (body dir ++ (List.replicate (ups (body path) (body dir)) .parentDir ++
      kept (body path) (body dir)))

/-- The condition on a call. -/
def Line.callInside : Line → Bool
  | clonePath source _ => inside source
  | _ => true

/-- The condition on a link that is about to be made, by the call that makes it. -/
def Line.linkInside : Line → Line → Bool
  | clonePath source target, clonePathSymlink path target' =>
      target != target' || File.linkInside source path
  | _, _ => true

/-- The path leads, read lexically, to an entry below the destination. -/
def Below (root p : OsString) : Prop :=
  ∃ names, names ≠ [] ∧
    lexicalResolve [] (components p) = lexicalResolve [] (components root) ++ names

/-- What is made lies below the destination, and a link leads to a place there, or to
the destination itself. -/
def Made.Contained (root : OsString) : Made → Prop
  | .dir p => Below root p
  | .file p => Below root p
  | .link text p => Below root p ∧ ∃ dir, parent p = some dir ∧
      lexicalResolve [] (components root) <+:
        lexicalResolve (lexicalResolve [] (components dir)) (components text)

/-! ## What is made goes back to a call -/

/-- The path ends in a name. -/
def EndsInName (p : OsString) : Prop := ∃ pre name, body p = pre ++ [.normal name]

/-- A place where a call on the log makes something. -/
structure Site (root : OsString) (log : List Line) (source dir : OsString) : Prop where
  absolute : hasRoot source = true
  dir : parent source = some dir
  line : .clonePath source (targetOf root source) ∈ log
  name : EndsInName (targetOf root source)

theorem Site.mono {log log' : List Line} {source dir : OsString} (h : Site root log source dir)
    (hlog : ∀ line ∈ log, line ∈ log') : Site root log' source dir :=
  ⟨h.absolute, h.dir, hlog _ h.line, h.name⟩

inductive Justified (root : OsString) (log : List Line) : Made → Prop
  | dir {source d} (hsite : Site root log source d) : Justified root log (.dir (targetOf root source))
  | file {source d} (hsite : Site root log source d) :
      Justified root log (.file (targetOf root source))
  | link {source d path text} (hsite : Site root log source d) (hpath : hasRoot path = true)
      (hline : .clonePath path (targetOf root path) ∈ log)
      (hlink : .clonePathSymlink path (targetOf root source) ∈ log)
      (htext : convertAbsRel (targetOf root path) (targetOf root source) = some text) :
      Justified root log (.link text (targetOf root source))

theorem Justified.mono {log log' : List Line} {m : Made} (h : Justified root log m)
    (hlog : ∀ line ∈ log, line ∈ log') : Justified root log' m := by
  cases h with
  | dir hsite => exact .dir (hsite.mono hlog)
  | file hsite => exact .file (hsite.mono hlog)
  | link hsite hpath hline hlink htext =>
      exact .link (hsite.mono hlog) hpath (hlog _ hline) (hlog _ hlink) htext

/-- The lines are on the log, and it justifies what has been made. -/
structure Logged (root : OsString) (lines : List Line) (w : World) : Prop where
  lines : ∀ line ∈ lines, line ∈ w.log
  made : ∀ m ∈ w.made, Justified root w.log m

variable {lines : List Line}

theorem Logged.subset {lines' : List Line} {w : World} (h : Logged root lines w)
    (hsub : ∀ line ∈ lines', line ∈ lines) : Logged root lines' w :=
  ⟨fun line hline => h.lines line (hsub line hline), h.made⟩

theorem Logged.tail {line : Line} {w : World} (h : Logged root (line :: lines) w) :
    Logged root lines w :=
  h.subset fun _ hl => List.mem_cons_of_mem _ hl

theorem keeps_eprintln (line : Line) :
    Keeps (Logged root lines) (Logged root (line :: lines)) (eprintln line) := by
  rintro w r w' h ⟨⟩
  refine ⟨fun l hl => ?_, fun m hm => (h.made m hm).mono fun l hl => List.mem_append_left _ hl⟩
  rcases List.mem_cons.mp hl with rfl | hl
  · exact List.mem_append_right _ List.mem_cons_self
  · exact List.mem_append_left _ (h.lines l hl)

theorem keeps_call {α : Type} {made : List Made} {f : Tree → Except Errno (α × Tree)}
    (hmade : ∀ w a tree, Logged root lines w → f w.tree = .ok (a, tree) →
      ∀ m ∈ made, Justified root w.log m) :
    Keeps (Logged root lines) (Logged root lines) (call env made f) := by
  intro w r w' h heq
  rw [call] at heq
  split at heq
  · cases heq
    exact ⟨h.lines, h.made⟩
  · split at heq
    · cases heq
      exact ⟨h.lines, h.made⟩
    · rename_i a tree hf
      cases heq
      refine ⟨h.lines, fun m hm => ?_⟩
      rcases List.mem_append.mp hm with hm | hm
      · exact h.made m hm
      · exact hmade w a tree h hf m hm

theorem keeps_change {made : List Made} {f : Tree → Except Errno Tree}
    (hmade : ∀ w tree, Logged root lines w → f w.tree = .ok tree →
      ∀ m ∈ made, Justified root w.log m) :
    Keeps (Logged root lines) (Logged root lines) (change env made f) := by
  refine keeps_call fun w _ tree h hf => ?_
  cases hft : f w.tree with
  | error e =>
      rw [hft] at hf
      cases hf
  | ok tree' =>
      exact hmade w tree' h hft

theorem Logged.harmless : Harmless env (Logged root lines) where
  ask _ := keeps_call fun _ _ _ _ _ _ hm => absurd hm List.not_mem_nil
  setPermissions _ _ := keeps_change fun _ _ _ _ _ hm => absurd hm List.not_mem_nil

/-! ## The branches -/

/-- Only a name at the end of a path from the root on leads to what is no directory. -/
theorem endsInName_of_walks {t : Tree} {v : Tree.View} {follow missing : Bool} {p : OsString}
    {loc : Loc} (hp : hasRoot p = true)
    (h : Tree.Walks t follow missing (Tree.start v p) (body p) loc) (hloc : t.isDir loc = false) :
    EndsInName p := by
  refine h.last_name ?_ hloc
  rw [Tree.start, if_pos hp]
  exact Tree.Walks.isDir_root t

theorem endsInName_of_openTo {t : Tree} {p : OsString} {loc : Loc} (hp : hasRoot p = true)
    (h : openTo env t p = .ok loc) : EndsInName p := by
  rw [openTo] at h
  cases hl : t.lookup env.view true true p with
  | error e =>
      rw [hl] at h
      cases h
  | ok loc' =>
      simp only [hl] at h
      split at h
      · cases h
      · rename_i hdir
        cases h
        have hloc : t.isDir loc = false := by simpa using hdir
        have hwalk := Tree.lookup_ok hl
        rw [steps] at hwalk
        split at hwalk
        · rw [hwalk.curDir_last.2] at hloc
          cases hloc
        · rw [List.append_nil] at hwalk
          exact endsInName_of_walks hp hwalk hloc

/-- A call on a path with a root, whose line is one of those asked for. -/
structure Called (root : OsString) (lines : List Line) (source : OsString) : Prop where
  rooted : hasRoot root = true
  absolute : hasRoot source = true
  line : .clonePath source (targetOf root source) ∈ lines

variable {source : OsString}

theorem Called.target (hc : Called root lines source) : hasRoot (targetOf root source) = true :=
  hasRoot_targetOf hc.rooted hc.absolute

theorem keeps_createDir {dir : OsString} (hc : Called root lines source)
    (hdir : parent source = some dir) (mode : Nat) :
    Keeps (Logged root lines) (Logged root lines) (createDir env (targetOf root source) mode) := by
  refine keeps_change fun w tree h hf m hm => ?_
  obtain rfl := List.mem_singleton.mp hm
  obtain ⟨loc, hwalk, hn, _⟩ := Tree.mkdir_ok hf
  exact .dir ⟨hc.absolute, hdir, h.lines _ hc.line,
    endsInName_of_walks hc.target hwalk (Tree.isDir_of_none hn)⟩

theorem keeps_copyFile {dir : OsString} (hc : Called root lines source)
    (hdir : parent source = some dir) (fuel : Nat) :
    Keeps (Logged root lines) (Logged root lines)
      (copyFile env fuel source (targetOf root source)) := by
  intro w r w' h heq
  rw [copyFile] at heq
  dsimp only at heq
  split at heq
  · cases heq
  · split at heq
    · rename_i content loc hdst hopen
      cases heq
      refine ⟨h.lines, fun m hm => ?_⟩
      rcases List.mem_append.mp hm with hm | hm
      · exact h.made m hm
      · obtain rfl := List.mem_singleton.mp hm
        exact .file ⟨hc.absolute, hdir, h.lines _ hc.line, endsInName_of_openTo hc.target hopen⟩
    · cases heq
      exact ⟨h.lines, h.made⟩

theorem keeps_lnR {path dir : OsString} (hc : Called root lines source)
    (hpath : Called root lines path) (hdir : parent source = some dir)
    (hlink : .clonePathSymlink path (targetOf root source) ∈ lines) :
    Keeps (Logged root lines) (Logged root lines)
      (lnR env (targetOf root path) (targetOf root source)) := by
  rw [lnR]
  split
  · exact keeps_pure _
  · rename_i text htext
    refine Keeps.seq (keeps_change fun w tree h hf m hm => ?_) fun r => keeps_pure _
    obtain rfl := List.mem_singleton.mp hm
    obtain ⟨loc, hwalk, hn, _⟩ := Tree.symlink_ok hf
    have hname : EndsInName (targetOf root source) :=
      endsInName_of_walks hc.target hwalk (Tree.isDir_of_none hn)
    exact .link ⟨hc.absolute, hdir, h.lines _ hc.line, hname⟩ hpath.absolute
      (h.lines _ hpath.line) (h.lines _ hlink) htext

/-- What is asked of the calls of `clone_path` by itself. -/
def KeepsCall (root : OsString) (clone : OsString → Run Unit) : Prop :=
  ∀ (lines : List Line) (source : OsString), hasRoot source = true →
    Keeps (Logged root lines)
      (Logged root (.clonePath source (targetOf root source) :: lines)) (clone source)

theorem keeps_cloneLink {clone : OsString → Run Unit} {dir : OsString}
    (hclone : KeepsCall root clone) (hc : Called root lines source)
    (hdir : parent source = some dir) :
    Keeps (Logged root lines) (Logged root lines)
      (cloneLink env root clone source (targetOf root source)) := by
  refine (Logged.harmless.ask _).seq fun r => (keeps_orFail _ r).seq fun text => ?_
  have hpath : hasRoot (linkPath source text) = true := hasRoot_linkPath hc.absolute hdir
  refine (hclone lines _ hpath).bind (fun _ => ?_) fun w h => h.tail
  refine (keeps_eprintln _).bind (fun _ => ?_) fun w h => h.tail.tail
  refine (keeps_eprintln _).bind (fun _ => ?_) fun w h => h.tail.tail.tail
  refine (keeps_lnR ⟨hc.rooted, hc.absolute, ?_⟩ ⟨hc.rooted, hpath, ?_⟩ hdir ?_).weaken
    fun w h => h.tail.tail.tail
  · simp [hc.line]
  · simp
  · simp

theorem keeps_cloneEntry {clone : OsString → Run Unit} {dir : OsString} (fuel : Nat) (n : Node)
    (hclone : KeepsCall root clone) (hc : Called root lines source)
    (hdir : parent source = some dir) :
    Keeps (Logged root lines) (Logged root lines)
      (cloneEntry env root clone fuel source (targetOf root source) n) := by
  rw [cloneEntry]
  split
  · exact keeps_cloneLink hclone hc hdir
  · refine (Logged.harmless.isDir source).seq fun isDir => ?_
    split
    · refine (keeps_eprintln _).bind (fun _ => ?_) fun w h => h.tail
      refine Keeps.weaken (Keeps.seq (keeps_createDir ?_ hdir _) fun r => keeps_pure _)
        fun w h => h.tail
      exact ⟨hc.rooted, hc.absolute, List.mem_cons_of_mem _ hc.line⟩
    · refine (Logged.harmless.isFile source).seq fun isFile => ?_
      split
      · refine (keeps_eprintln _).bind (fun _ => ?_) fun w h => h.tail
        refine Keeps.weaken (Keeps.seq (keeps_copyFile ?_ hdir _) fun r => keeps_pure _)
          fun w h => h.tail
        exact ⟨hc.rooted, hc.absolute, List.mem_cons_of_mem _ hc.line⟩
      · exact keeps_unimplemented

/-- One call, if the calls it makes itself do as much. -/
theorem keeps_cloneStep {clone : OsString → Run Unit} (hroot : hasRoot root = true) (fuel : Nat)
    (hclone : KeepsCall root clone) : KeepsCall root (cloneStep env root clone fuel) := by
  intro lines source hsource
  rw [cloneStep]
  refine (keeps_eprintln _).bind (fun _ => ?_) fun w h => h
  refine (Logged.harmless.ask _).seq fun r => ?_
  split
  · exact keeps_pure _
  · split
    · exact keeps_pure _
    · rename_i dir hdir
      have hc : Called root (.clonePath source (targetOf root source) :: lines) source :=
        ⟨hroot, hsource, List.mem_cons_self⟩
      refine (hclone _ dir (parent_eq_some hsource hdir).1).bind (fun _ => ?_) fun w h => h.tail
      have hc' : Called root (.clonePath dir (targetOf root dir) ::
          .clonePath source (targetOf root source) :: lines) source :=
        ⟨hroot, hsource, List.mem_cons_of_mem _ hc.line⟩
      refine Keeps.weaken (Q := Logged root (.clonePath dir (targetOf root dir) ::
        .clonePath source (targetOf root source) :: lines)) ?_ fun w h => h.tail
      refine (Logged.harmless.ask _).seq fun r => (keeps_orFail _ r).seq fun n => ?_
      refine (Logged.harmless.relax _).seq fun relaxed => ?_
      refine (keeps_cloneEntry fuel n hclone hc' hdir).seq fun ret => ?_
      exact (Logged.harmless.restore relaxed).seq fun _ => keeps_orFail _ ret

/-- Everything a run of `clone_path` makes goes back to a call whose line is on the log. -/
theorem keeps_clonePath (hroot : hasRoot root = true) (fuel : Nat) :
    KeepsCall root (clonePath env root fuel) := by
  induction fuel with
  | zero => exact fun _ _ _ => keeps_outOfFuel
  | succ fuel ih => exact keeps_cloneStep hroot fuel ih

/-! ## Where it lies -/

theorem inside_iff :
    inside source = true ↔ hasRoot (source.drop 1) = false ∧ staysInside 0 (body source) = true := by
  rw [inside, Bool.and_eq_true, Bool.not_eq_true']

theorem lexicalResolve_body (hroot : hasRoot root = true) {cs : List Component}
    (h : staysInside 0 cs = true) :
    lexicalResolve [] (body root ++ cs) =
      lexicalResolve [] (components root) ++ lexicalResolve [] cs := by
  rw [lexicalResolve_append, lexicalResolve_of_hasRoot hroot]
  have hinside := lexicalResolve_inside (lexicalResolve [] (body root)) [] h
  rw [List.append_nil] at hinside
  exact hinside

variable {log : List Line}

theorem Site.below {dir : OsString} (h : Site root log source dir) (hroot : hasRoot root = true)
    (hinside : inside source = true) : Below root (targetOf root source) := by
  obtain ⟨hrest, hstays⟩ := inside_iff.mp hinside
  have hbody : body (targetOf root source) = body root ++ body source := Pushed.body fun _ => hrest
  obtain ⟨pre, name, hname⟩ := h.name
  obtain ⟨_, c, hparent⟩ := parent_eq_some h.absolute h.dir
  have hlast : body source = body dir ++ [.normal name] := by
    rw [hname, hparent, ← List.append_assoc] at hbody
    rw [hparent, (List.append_inj' hbody rfl).2]
  refine ⟨lexicalResolve [] (body source), ?_, ?_⟩
  · rw [hlast, lexicalResolve_append]
    exact List.append_ne_nil_of_right_ne_nil _ (List.cons_ne_nil _ _)
  · rw [lexicalResolve_of_hasRoot (hasRoot_targetOf hroot h.absolute), hbody,
      lexicalResolve_body hroot hstays]

/-- Whatever the source tree, the destination and the failures: if no call on the log
leads above the root, all that the run makes lies below the destination. -/
theorem clonePath_contained (env : Env) (root source : OsString) (fuel : Nat) (tree : Tree)
    (flags : Flags) (r : Outcome CloneError Unit) (w : World) (hroot : hasRoot root = true)
    (hsource : hasRoot source = true)
    (hrun : clonePath env root fuel source (World.start tree flags) = some (r, w))
    (hcalls : ∀ line ∈ w.log, line.callInside = true)
    (hlinks : ∀ line ∈ w.log, ∀ line' ∈ w.log, line.linkInside line' = true) :
    ∀ m ∈ w.made, m.Contained root := by
  intro m hm
  have hstart : Logged root [] (World.start tree flags) :=
    ⟨fun _ h => absurd h List.not_mem_nil, fun _ h => absurd h List.not_mem_nil⟩
  have hend := keeps_clonePath hroot fuel [] source hsource _ r w hstart hrun
  cases hend.made m hm with
  | dir hsite => exact hsite.below hroot (hcalls _ hsite.line)
  | file hsite => exact hsite.below hroot (hcalls _ hsite.line)
  | @link source d path text hsite hpath hline hlink htext =>
      have hinside : inside source = true := hcalls _ hsite.line
      have hpathInside : inside path = true := hcalls _ hline
      have hlinkInside := hlinks _ hsite.line _ hlink
      rw [Line.linkInside, bne_self_eq_false, Bool.false_or, linkInside, hsite.dir, Option.all_some]
        at hlinkInside
      refine ⟨hsite.below hroot hinside, ?_⟩
      have hpushed : Pushed source := fun _ => (inside_iff.mp hinside).1
      have hpathPushed : Pushed path := fun _ => (inside_iff.mp hpathInside).1
      obtain ⟨_, _, hsourceBody⟩ := parent_eq_some hsite.absolute hsite.dir
      obtain ⟨dir, hdir, hbody, _⟩ := hpushed.parent_target (ne_nil_of_hasRoot hroot) hsourceBody
      have hdirRoot := (parent_eq_some (hasRoot_targetOf hroot hsite.absolute) hdir).1
      obtain ⟨text', htext', hrel, htextBody⟩ := convertAbsRel_body hdir
        (leadComponents_of_hasRoot (hasRoot_targetOf hroot hpath) hdirRoot)
      obtain rfl : text' = text := Option.some.inj (htext'.symm.trans htext)
      refine ⟨dir, hdir, ?_⟩
      rw [hbody, hpathPushed.body, kept_append_left.1, kept_append_left.2] at htextBody
      rw [lexicalResolve_of_hasRoot hdirRoot, lexicalResolve_of_relative hrel, htextBody,
        ← lexicalResolve_append, hbody, List.append_assoc,
        lexicalResolve_body hroot hlinkInside]
      exact List.prefix_append _ _

namespace Sample

/-- `linked` with a text that starts with two separators. -/
def doubled : Tree := .ofEntries [
  ([ascii "r"], .dir 0o755), ([ascii "f"], .file 0o644 [1, 2]), ([ascii "l"], .link (ascii "//f"))]

end Sample

theorem clonePath_linked :
    ∃ w, clonePath Sample.calm (ascii "/r") 9 (ascii "/l") (World.start Sample.linked ⟨true, true⟩) =
        some (.ok (), w) ∧
      w.made = [.file (ascii "/r/f"), .link (ascii "f") (ascii "/r/l")] ∧
      ∀ m ∈ w.made, m.Contained (ascii "/r") := by
  have hall : ((clonePath Sample.calm (ascii "/r") 9 (ascii "/l")
      (World.start Sample.linked ⟨true, true⟩)).any fun out =>
        decide (out.1 = .ok ()) &&
        (decide (out.2.made = [.file (ascii "/r/f"), .link (ascii "f") (ascii "/r/l")]) &&
        (out.2.log.all Line.callInside &&
          out.2.log.all fun line => out.2.log.all line.linkInside))) = true := by
    decide +kernel
  obtain ⟨⟨r, w⟩, hrun, hout⟩ := (Option.any_eq_true _ _).mp hall
  simp only [Bool.and_eq_true, decide_eq_true_eq, List.all_eq_true] at hout
  obtain ⟨rfl, hmade, hcalls, hlinks⟩ := hout
  exact ⟨w, hrun, hmade, clonePath_contained Sample.calm (ascii "/r") (ascii "/l") 9 Sample.linked
    ⟨true, true⟩ (.ok ()) w rfl rfl hrun hcalls hlinks⟩

/-- The link comes out as `../f`, which leads out of the destination. -/
theorem clonePath_doubled :
    ∃ w, clonePath Sample.calm (ascii "/r") 9 (ascii "/l") (World.start Sample.doubled ⟨true, true⟩) =
        some (.ok (), w) ∧
      ∃ m ∈ w.made, ¬ m.Contained (ascii "/r") := by
  have hall : ((clonePath Sample.calm (ascii "/r") 9 (ascii "/l")
      (World.start Sample.doubled ⟨true, true⟩)).any fun out =>
        decide (out.1 = .ok ()) &&
        decide (out.2.made = [.link (ascii "../f") (ascii "/r/l")])) = true := by
    decide +kernel
  obtain ⟨⟨r, w⟩, hrun, hout⟩ := (Option.any_eq_true _ _).mp hall
  simp only [Bool.and_eq_true, decide_eq_true_eq] at hout
  obtain ⟨rfl, hmade⟩ := hout
  refine ⟨w, hrun, .link (ascii "../f") (ascii "/r/l"), by rw [hmade]; exact List.mem_cons_self, ?_⟩
  rintro ⟨_, dir, hdir, hinit⟩
  obtain rfl : ascii "/r" = dir := Option.some.inj hdir
  exact absurd hinit (by decide)

end File
end DracutInstall

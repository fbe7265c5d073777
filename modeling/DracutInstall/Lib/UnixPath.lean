/-
Paths as byte strings, with the operations of `std::path` on Unix.

A path is whatever bytes the caller wrote: repeated separators, `.` and `..`
are kept, and only the operations below look through them.
-/
import Mathlib.Data.List.Induction
import Mathlib.Data.List.TakeWhile
import DracutInstall.Lib.Bytes

namespace UnixPath

open ByteCodec

abbrev OsString := List UInt8

def sep : UInt8 := 47

/-- `.` and `..` as path segments. -/
def dot : OsString := [46]

def dotDot : OsString := [46, 46]

def hasRoot (p : OsString) : Bool := p.head? == some sep

inductive Component where
  | rootDir
  | curDir
  | parentDir
  | normal (name : OsString)
  deriving DecidableEq, Repr

/-- `Component::as_os_str`. -/
def Component.asOsStr : Component → OsString
  | rootDir => [sep]
  | curDir => dot
  | parentDir => dotDot
  | normal name => name

/-- A segment that is not a component of its own: an empty one, or a `.`. -/
def blank (seg : OsString) : Bool := seg.isEmpty || seg == dot

/-- `Components::parse_single_component`. -/
def parseSegment (seg : OsString) : Option Component :=
  if blank seg then none
  else if seg = dotDot then some .parentDir
  else some (.normal seg)

/-- The part of a path before its body: the root, or a `.` at the front of a
relative path. -/
def lead (p : OsString) : OsString :=
  if hasRoot p then [sep]
  else if p = dot ∨ dot ++ [sep] <+: p then dot
  else []

/-- The segments of the body, as they stand between the separators. -/
def bodySegments (p : OsString) : List OsString := (p.drop (lead p).length).splitOn sep

def leadComponents (p : OsString) : List Component :=
  if lead p = [sep] then [.rootDir] else if lead p = dot then [.curDir] else []

/-- `Path::components`. -/
def components (p : OsString) : List Component :=
  leadComponents p ++ (bodySegments p).filterMap parseSegment

/-- The body segments from the back, without those that are no component. -/
def backSegments (p : OsString) : List OsString := (bodySegments p).reverse.dropWhile blank

/-- `Path::parent`: the path without its last component, byte for byte but for
the separators and `.` segments that are then at the end. -/
def parent (p : OsString) : Option OsString :=
  match backSegments p with
  | [] => if lead p = dot then some [] else none
  | _ :: segs => some (lead p ++ [sep].intercalate (segs.dropWhile blank).reverse)

/-- `Path::file_name`. -/
def fileName (p : OsString) : Option OsString :=
  match (components p).getLast? with
  | some (.normal name) => some name
  | _ => none

/-- `PathBuf::push`: a path with a root replaces what was there. -/
def push (p q : OsString) : OsString :=
  if hasRoot q then q
  else if p.isEmpty || p.getLast? == some sep then p ++ q
  else p ++ sep :: q

/-! ## Absolute paths -/

/-- What a directory can call an entry. -/
def EntryName (name : OsString) : Prop :=
  name ≠ [] ∧ sep ∉ name ∧ name ≠ dot ∧ name ≠ dotDot

instance (name : OsString) : Decidable (EntryName name) :=
  inferInstanceAs (Decidable (_ ∧ _))

/-- The path of an entry from the root on. -/
def absolute (names : List OsString) : OsString := sep :: [sep].intercalate names

/-- Absolute, with one separator between names and none at the end. -/
def Canonical (p : OsString) : Prop :=
  ∃ names : List OsString, (∀ name ∈ names, EntryName name) ∧ p = absolute names

theorem sep_not_mem_of_mem_splitOn {p seg : OsString} (h : seg ∈ p.splitOn sep) : sep ∉ seg := by
  induction p generalizing seg with
  | nil =>
      rw [List.splitOn_nil, List.mem_singleton] at h
      rw [h]
      exact List.not_mem_nil
  | cons b p ih =>
      rw [List.splitOn_cons_eq_if_modifyHead] at h
      split at h
      · rcases List.mem_cons.mp h with rfl | h
        · exact List.not_mem_nil
        · exact ih h
      · rename_i hb
        obtain ⟨first, rest, heq⟩ := List.exists_cons_of_ne_nil (List.splitOn_ne_nil sep p)
        rw [heq, List.modifyHead_cons] at h
        rcases List.mem_cons.mp h with rfl | h
        · rw [List.mem_cons, not_or]
          exact ⟨fun hsep => hb (by simp [hsep]), ih (heq ▸ List.mem_cons_self)⟩
        · exact ih (heq ▸ List.mem_cons_of_mem _ h)

theorem EntryName.not_blank {name : OsString} (h : EntryName name) : blank name = false := by
  obtain ⟨hne, _, hdot, _⟩ := h
  simp [blank, hne, hdot]

theorem dropWhile_blank {names : List OsString} (h : ∀ n ∈ names, EntryName n) :
    names.dropWhile blank = names := by
  cases names with
  | nil => rfl
  | cons name names =>
      rw [List.dropWhile_cons_of_neg (by simp [(h name List.mem_cons_self).not_blank])]

theorem intercalate_concat {l : List OsString} (hne : l ≠ []) (name : OsString) :
    [sep].intercalate (l ++ [name]) = [sep].intercalate l ++ sep :: name := by
  induction l with
  | nil => exact absurd rfl hne
  | cons n names ih =>
      cases names with
      | nil => simp
      | cons m names =>
          have h := ih (by simp)
          rw [List.cons_append, List.cons_append, List.intercalate_cons_cons, ← List.cons_append, h,
            List.intercalate_cons_cons]
          simp

theorem parseSegment_eq_normal {seg name : OsString} (h : parseSegment seg = some (.normal name)) :
    seg = name ∧ blank seg = false ∧ seg ≠ dotDot := by
  unfold parseSegment at h
  split at h
  · cases h
  · rename_i hblank
    split at h
    · cases h
    · rename_i hne
      exact ⟨Component.normal.inj (Option.some.inj h), Bool.eq_false_iff.mpr hblank, hne⟩

/-- A component that is a name is one an entry can have. -/
theorem entryName_of_parseSegment {p seg name : OsString} (hseg : seg ∈ p.splitOn sep)
    (hparse : parseSegment seg = some (.normal name)) : EntryName name := by
  obtain ⟨rfl, hblank, hdots⟩ := parseSegment_eq_normal hparse
  rw [blank, Bool.or_eq_false_iff] at hblank
  refine ⟨?_, sep_not_mem_of_mem_splitOn hseg, ?_, hdots⟩
  · rintro rfl
    exact absurd hblank.1 (by decide)
  · rintro rfl
    exact absurd hblank.2 (by decide)

/-- A file name is a name an entry can have. -/
theorem entryName_of_fileName {p name : OsString} (h : fileName p = some name) :
    EntryName name := by
  unfold fileName at h
  split at h
  · rename_i name' hlast
    obtain rfl : name' = name := Option.some.inj h
    have hmem := List.mem_of_getLast? hlast
    rcases List.mem_append.mp hmem with hlead | hbody
    · unfold leadComponents at hlead
      split at hlead
      · cases List.mem_singleton.mp hlead
      · split at hlead
        · cases List.mem_singleton.mp hlead
        · cases hlead
    · obtain ⟨seg, hseg, hparse⟩ := List.mem_filterMap.mp hbody
      exact entryName_of_parseSegment hseg hparse
  · cases h

section Absolute

variable {names : List OsString} {name : OsString}

theorem lead_absolute (names : List OsString) : lead (absolute names) = [sep] := by
  rw [lead, if_pos]
  rfl

theorem bodySegments_absolute (hnames : ∀ n ∈ names, EntryName n) (hne : names ≠ []) :
    bodySegments (absolute names) = names := by
  rw [bodySegments, lead_absolute]
  exact List.splitOn_intercalate sep (fun n hn => (hnames n hn).2.1) hne

theorem forall_entryName_concat (hnames : ∀ n ∈ names, EntryName n) (hname : EntryName name) :
    ∀ n ∈ names ++ [name], EntryName n := by
  intro n hn
  rcases List.mem_append.mp hn with hn | hn
  · exact hnames n hn
  · rw [List.mem_singleton.mp hn]
    exact hname

theorem parent_absolute (hnames : ∀ n ∈ names, EntryName n) (hname : EntryName name) :
    parent (absolute (names ++ [name])) = some (absolute names) := by
  have hbody := bodySegments_absolute (forall_entryName_concat hnames hname) (by simp)
  have hdrop : names.reverse.dropWhile blank = names.reverse :=
    dropWhile_blank fun n hn => hnames n (List.mem_reverse.mp hn)
  rw [parent, backSegments, hbody, List.reverse_append, List.reverse_singleton,
    List.singleton_append, List.dropWhile_cons_of_neg (by simp [hname.not_blank])]
  simp only [hdrop, List.reverse_reverse, lead_absolute]
  rfl

theorem parseSegment_entryName (hname : EntryName name) :
    parseSegment name = some (.normal name) := by
  rw [parseSegment, if_neg (by simp [hname.not_blank]), if_neg hname.2.2.2]

theorem fileName_absolute (hnames : ∀ n ∈ names, EntryName n) (hname : EntryName name) :
    fileName (absolute (names ++ [name])) = some name := by
  have hbody := bodySegments_absolute (forall_entryName_concat hnames hname) (by simp)
  rw [fileName, components, hbody, List.filterMap_append, List.filterMap_cons,
    parseSegment_entryName hname]
  simp

theorem push_absolute (hnames : ∀ n ∈ names, EntryName n) (hname : EntryName name) :
    push (absolute names) name = absolute (names ++ [name]) := by
  have hroot : hasRoot name = false := by
    obtain ⟨b, rest, rfl⟩ := List.exists_cons_of_ne_nil hname.1
    have hb : b ≠ sep := fun h => hname.2.1 (h ▸ List.mem_cons_self)
    simp [hasRoot, hb]
  rw [push, hroot, if_neg Bool.false_ne_true]
  rcases List.eq_nil_or_concat names with rfl | ⟨init, last, rfl⟩
  · simp [absolute]
  · rw [List.concat_eq_append] at hnames ⊢
    have hlast := hnames last (by simp)
    have hend : (absolute (init ++ [last])).getLast? ≠ some sep := by
      obtain ⟨front, hfront⟩ : ∃ front, absolute (init ++ [last]) = front ++ last := by
        rcases List.eq_nil_or_concat init with rfl | ⟨init, n, rfl⟩
        · exact ⟨[sep], by simp [absolute]⟩
        · refine ⟨absolute (init ++ [n]) ++ [sep], ?_⟩
          rw [absolute, List.concat_eq_append, intercalate_concat (by simp)]
          simp [absolute]
      obtain ⟨b, hb⟩ := Option.ne_none_iff_exists'.mp
        (mt List.getLast?_eq_none_iff.mp hlast.1)
      rw [hfront, List.getLast?_append, hb, Option.some_or]
      rintro ⟨⟩
      exact hlast.2.1 (List.mem_of_getLast? hb)
    have hjoin := intercalate_concat (l := init ++ [last]) (by simp) name
    rw [if_neg (by simpa [absolute] using hend), absolute, absolute, hjoin, List.cons_append]

end Absolute

/-! ## The body of a path

All components but a root or a `.` at the front.  Pushing appends bodies, and the
parent has one component less. -/

def body (p : OsString) : List Component := (p.splitOn sep).filterMap parseSegment

theorem parseSegment_blank {seg : OsString} (h : blank seg = true) : parseSegment seg = none :=
  if_pos h

theorem body_nil : body [] = [] := rfl

theorem body_append_sep (p q : OsString) : body (p ++ sep :: q) = body p ++ body q := by
  rw [body, List.splitOn_append_cons_self, List.filterMap_append]
  rfl

theorem body_sep_cons (q : OsString) : body (sep :: q) = body q := body_append_sep [] q

theorem body_of_sep_not_mem {seg : OsString} (h : sep ∉ seg) :
    body seg = (parseSegment seg).toList := by
  rw [body, List.splitOn_eq_singleton h, List.filterMap_cons, List.filterMap_nil]
  cases parseSegment seg <;> rfl

theorem body_entryName {name : OsString} (h : EntryName name) : body name = [.normal name] := by
  rw [body_of_sep_not_mem h.2.1, parseSegment_entryName h]
  rfl

/-- A body is made of `..` and of names. -/
theorem mem_body {p : OsString} {c : Component} (h : c ∈ body p) :
    c = .parentDir ∨ ∃ name, c = .normal name ∧ EntryName name := by
  obtain ⟨seg, hseg, hparse⟩ := List.mem_filterMap.mp h
  have hcases := hparse
  unfold parseSegment at hcases
  split at hcases
  · cases hcases
  · split at hcases
    · exact .inl (Option.some.inj hcases).symm
    · obtain rfl := Option.some.inj hcases
      exact .inr ⟨seg, rfl, entryName_of_parseSegment hseg hparse⟩

theorem body_dotDot : body dotDot = [.parentDir] := by decide

theorem hasRoot_cons (p : OsString) : hasRoot (sep :: p) = true := by
  simp [hasRoot]

theorem ne_nil_of_hasRoot {p : OsString} (h : hasRoot p = true) : p ≠ [] := by
  rintro rfl
  cases h

theorem exists_of_hasRoot {p : OsString} (h : hasRoot p = true) : ∃ q, p = sep :: q := by
  cases p with
  | nil => cases h
  | cons b q => exact ⟨q, by simpa [hasRoot] using h⟩

theorem lead_of_hasRoot {p : OsString} (h : hasRoot p = true) : lead p = [sep] := if_pos h

/-- The segments that are not what leads the path make its body. -/
theorem body_eq_bodySegments (p : OsString) :
    body p = (bodySegments p).filterMap parseSegment := by
  rw [bodySegments, lead]
  split
  · rename_i hroot
    obtain ⟨q, rfl⟩ := exists_of_hasRoot hroot
    exact body_sep_cons q
  · split
    · rename_i hdot
      rcases hdot with rfl | ⟨q, rfl⟩
      · rfl
      · rw [List.append_assoc, List.singleton_append, body_append_sep]
        exact (body_sep_cons q).symm
    · rfl

theorem components_eq (p : OsString) : components p = leadComponents p ++ body p := by
  rw [components, ← body_eq_bodySegments]

theorem components_of_hasRoot {p : OsString} (h : hasRoot p = true) :
    components p = .rootDir :: body p := by
  rw [components_eq, leadComponents, if_pos (lead_of_hasRoot h)]
  rfl

/-- A relative path is its body, with a `.` before it or not. -/
theorem components_of_relative {p : OsString} (h : hasRoot p = false) :
    components p = body p ∨ components p = .curDir :: body p := by
  rw [components, ← body_eq_bodySegments, leadComponents, lead, h, if_neg Bool.false_ne_true]
  by_cases hdot : p = dot ∨ dot ++ [sep] <+: p
  · rw [if_pos hdot, if_neg (by decide), if_pos rfl]
    exact .inr rfl
  · rw [if_neg hdot, if_neg (by decide), if_neg (by decide)]
    exact .inl rfl

theorem hasRoot_of_components {p : OsString} {cs : List Component}
    (h : components p = .rootDir :: cs) : hasRoot p = true ∧ body p = cs := by
  cases hroot : hasRoot p with
  | true => exact ⟨rfl, (List.cons.inj ((components_of_hasRoot hroot).symm.trans h)).2⟩
  | false =>
      rcases components_of_relative hroot with heq | heq
      · have hmem : Component.rootDir ∈ body p := by
          rw [← heq, h]
          exact List.mem_cons_self
        rcases mem_body hmem with hc | ⟨_, hc, _⟩ <;> cases hc
      · rw [heq] at h
        cases (List.cons.inj h).1

theorem body_push {p q : OsString} (h : hasRoot q = false) :
    body (push p q) = body p ++ body q := by
  rw [push, h, if_neg Bool.false_ne_true]
  split
  · rename_i hend
    rcases List.eq_nil_or_concat p with rfl | ⟨init, b, rfl⟩
    · rfl
    · rw [List.concat_eq_append] at hend ⊢
      obtain rfl : b = sep := by simpa using hend
      rw [List.append_assoc, List.singleton_append, body_append_sep, body_append_sep, body_nil,
        List.append_nil]
  · exact body_append_sep p q

theorem hasRoot_push {p q : OsString} (h : hasRoot q = false) :
    hasRoot (push p q) = hasRoot p := by
  rw [push, h, if_neg Bool.false_ne_true]
  cases p with
  | nil =>
      rw [if_pos (by rfl)]
      exact h
  | cons b p =>
      split
      · simp [hasRoot]
      · simp [hasRoot]

/-- Blank segments at the end are no part of the body. -/
theorem filterMap_dropWhile_blank (segs : List OsString) :
    (segs.dropWhile blank).filterMap parseSegment = segs.filterMap parseSegment := by
  induction segs with
  | nil => rfl
  | cons seg segs ih =>
      by_cases hblank : blank seg = true
      · rw [List.dropWhile_cons_of_pos hblank, ih, List.filterMap_cons, parseSegment_blank hblank]
      · rw [List.dropWhile_cons_of_neg hblank]

theorem filterMap_blank {segs : List OsString} (h : ∀ seg ∈ segs, blank seg = true) :
    segs.filterMap parseSegment = [] :=
  List.filterMap_eq_nil_iff.mpr fun seg hseg => parseSegment_blank (h seg hseg)

theorem parseSegment_of_not_blank {seg : OsString} (h : blank seg = false) :
    ∃ c, parseSegment seg = some c := by
  rw [parseSegment, h, if_neg Bool.false_ne_true]
  split
  · exact ⟨_, rfl⟩
  · exact ⟨_, rfl⟩

theorem body_intercalate {segs : List OsString} (h : ∀ seg ∈ segs, sep ∉ seg) :
    body ([sep].intercalate segs) = segs.filterMap parseSegment := by
  cases segs with
  | nil => rfl
  | cons seg segs =>
      have hsplit : ([sep].intercalate (seg :: segs)).splitOn sep = seg :: segs :=
        List.splitOn_intercalate sep h (List.cons_ne_nil seg segs)
      rw [body, hsplit]

theorem body_eq_backSegments (p : OsString) :
    body p = (backSegments p).reverse.filterMap parseSegment := by
  rw [body_eq_bodySegments, backSegments, List.filterMap_reverse, filterMap_dropWhile_blank,
    ← List.filterMap_reverse, List.reverse_reverse]

/-! ## Parents -/

/-- Behind a `.` at the front there is a separator, if there is anything. -/
theorem lead_cases (p : OsString) :
    lead p = [] ∨ lead p = [sep] ∨ (lead p = dot ∧ ∃ rest, bodySegments p = [] :: rest) := by
  by_cases hroot : hasRoot p = true
  · exact .inr (.inl (if_pos hroot))
  · by_cases hdot : p = dot ∨ dot ++ [sep] <+: p
    · have hlead : lead p = dot := (if_neg hroot).trans (if_pos hdot)
      refine .inr (.inr ⟨hlead, ?_⟩)
      rw [bodySegments, hlead]
      rcases hdot with rfl | ⟨q, rfl⟩
      · exact ⟨[], rfl⟩
      · exact ⟨q.splitOn sep, List.splitOn_append_cons_self [] q⟩
    · exact .inl ((if_neg hroot).trans (if_neg hdot))

/-- The segments at the front of a path are read as they were. -/
theorem body_lead_append {p : OsString} {segs : List OsString} (h : segs <+: bodySegments p) :
    body (lead p ++ [sep].intercalate segs) = segs.filterMap parseSegment := by
  have hsep : ∀ seg ∈ segs, sep ∉ seg := fun seg hseg =>
    sep_not_mem_of_mem_splitOn (h.subset hseg)
  rcases lead_cases p with hlead | hlead | ⟨hlead, rest, hrest⟩
  · rw [hlead, List.nil_append, body_intercalate hsep]
  · rw [hlead, List.singleton_append, body_sep_cons, body_intercalate hsep]
  · rw [hlead]
    cases segs with
    | nil => rfl
    | cons seg segs =>
        rw [hrest] at h
        obtain rfl := (List.cons_prefix_cons.mp h).1
        cases segs with
        | nil => rfl
        | cons b segs =>
            rw [List.intercalate_cons_cons, List.nil_append, List.singleton_append,
              body_append_sep, body_intercalate fun seg hseg => hsep seg (List.mem_cons_of_mem _ hseg)]
            rfl

/-- A parent is what leads a path, and the segments in front of the last that is not
blank, without the blank ones at their end. -/
theorem parent_segments {p d : OsString} (hd : parent p = some d) :
    (lead p = dot ∧ backSegments p = [] ∧ d = []) ∨ ∃ segs blanks seg rest,
      bodySegments p = segs ++ (blanks ++ seg :: rest) ∧ d = lead p ++ [sep].intercalate segs ∧
        (blanks ++ rest).filterMap parseSegment = [] ∧ blank seg = false ∧
        ∀ last ∈ segs.getLast?, blank last = false := by
  rw [parent] at hd
  cases hback : backSegments p with
  | nil =>
      rw [hback] at hd
      dsimp only at hd
      split at hd
      · rename_i hdot
        cases hd
        exact .inl ⟨hdot, rfl, rfl⟩
      · cases hd
  | cons seg segs =>
      rw [hback] at hd
      cases hd
      have hblank (segs : List OsString) {seg : OsString}
          (hhead : (segs.dropWhile blank).head? = some seg) : blank seg = false := by
        have hnot := List.head?_dropWhile_not blank segs
        rw [hhead] at hnot
        simpa using hnot
      have hskipped (segs : List OsString) :
          (segs.takeWhile blank).reverse.filterMap parseSegment = [] :=
        filterMap_blank fun seg hseg =>
          List.all_eq_true.mp List.all_takeWhile seg (List.mem_reverse.mp hseg)
      have hsegs : bodySegments p =
          segs.reverse ++ seg :: ((bodySegments p).reverse.takeWhile blank).reverse := by
        have hsplit := List.takeWhile_append_dropWhile (p := blank) (l := (bodySegments p).reverse)
        rw [← backSegments, hback] at hsplit
        have hreverse := congrArg List.reverse hsplit
        rw [List.reverse_reverse, List.reverse_append, List.reverse_cons, List.append_assoc,
          List.singleton_append] at hreverse
        exact hreverse.symm
      have hfront :
          segs.reverse = (segs.dropWhile blank).reverse ++ (segs.takeWhile blank).reverse := by
        rw [← List.reverse_append, List.takeWhile_append_dropWhile]
      refine .inr ⟨_, (segs.takeWhile blank).reverse, seg,
        ((bodySegments p).reverse.takeWhile blank).reverse, ?_, rfl, ?_, ?_, ?_⟩
      · rw [← List.append_assoc, ← hfront]
        exact hsegs
      · rw [List.filterMap_append, hskipped, hskipped, List.append_nil]
      · exact hblank (bodySegments p).reverse (by rw [← backSegments, hback]; rfl)
      · intro last hlast
        rw [List.getLast?_reverse] at hlast
        exact hblank segs hlast

theorem intercalate_startsWith (l m : List OsString) :
    [sep].intercalate l <+: [sep].intercalate (l ++ m) := by
  induction l with
  | nil => exact List.nil_prefix
  | cons a l ih =>
      cases l with
      | nil =>
          cases m with
          | nil => exact List.prefix_rfl
          | cons b m =>
              rw [List.singleton_append, List.intercalate_cons_cons, List.intercalate_singleton,
                List.append_assoc]
              exact List.prefix_append a _
      | cons b l =>
          rw [List.cons_append] at ih
          rw [List.cons_append, List.cons_append, List.intercalate_cons_cons,
            List.intercalate_cons_cons]
          exact (List.prefix_append_right_inj _).mpr ih

theorem intercalate_length_lt {seg : OsString} (hseg : seg ≠ []) (l m : List OsString) :
    ([sep].intercalate l).length < ([sep].intercalate (l ++ seg :: m)).length := by
  have hpos := List.length_pos_iff.mpr hseg
  induction l with
  | nil =>
      have hle := (intercalate_startsWith [seg] m).length_le
      simp only [List.intercalate_singleton, List.singleton_append] at hle
      exact Nat.lt_of_lt_of_le hpos hle
  | cons a l ih =>
      cases l with
      | nil => simp
      | cons b l =>
          simp only [List.cons_append, List.intercalate_cons_cons, List.length_append] at ih ⊢
          omega

theorem lead_startsWith (p : OsString) : lead p <+: p := by
  rw [lead]
  split
  · rename_i h
    obtain ⟨q, rfl⟩ := exists_of_hasRoot h
    exact ⟨q, rfl⟩
  · split
    · rename_i h
      rcases h with rfl | ⟨q, rfl⟩
      · exact List.prefix_rfl
      · exact ⟨[sep] ++ q, by rw [← List.append_assoc]⟩
    · exact List.nil_prefix

theorem lead_append_bodySegments (p : OsString) :
    lead p ++ [sep].intercalate (bodySegments p) = p := by
  rw [bodySegments, List.intercalate_splitOn]
  exact (List.prefix_iff_eq_append.mp (lead_startsWith p))

/-- A parent is a shorter path. -/
theorem parent_length {p d : OsString} (hd : parent p = some d) : d.length < p.length := by
  have hlength := congrArg List.length (lead_append_bodySegments p)
  rw [List.length_append] at hlength
  rcases parent_segments hd with
    ⟨hdot, _, rfl⟩ | ⟨segs, blanks, seg, rest, hsegments, rfl, _, hblank, _⟩
  · rw [← hlength, hdot]
    exact Nat.lt_of_lt_of_le (by decide : 0 < dot.length) (Nat.le_add_right _ _)
  · have hseg : seg ≠ [] := by
      rintro rfl
      cases hblank
    have hle := (intercalate_startsWith segs blanks).length_le
    have hlt := intercalate_length_lt hseg (segs ++ blanks) rest
    rw [List.append_assoc, ← hsegments] at hlt
    rw [List.length_append]
    omega

theorem parent_startsWith {p d : OsString} (hd : parent p = some d) : d <+: p := by
  rcases parent_segments hd with ⟨_, _, rfl⟩ | ⟨segs, blanks, seg, rest, hsegments, rfl, _⟩
  · exact List.nil_prefix
  · have hle := (List.prefix_append_right_inj (lead p)).mpr (intercalate_startsWith segs
      (blanks ++ seg :: rest))
    rw [← hsegments, lead_append_bodySegments] at hle
    exact hle

/-- A parent has a root where the path has one. -/
theorem hasRoot_parent {p d : OsString} (hd : parent p = some d) : hasRoot d = hasRoot p := by
  cases hroot : hasRoot p with
  | true =>
      rcases parent_segments hd with ⟨hdot, _, _⟩ | ⟨segs, _, _, _, _, rfl, _⟩
      · rw [lead_of_hasRoot hroot] at hdot
        cases hdot
      · rw [lead_of_hasRoot hroot]
        exact hasRoot_cons _
  | false =>
      by_contra hfalse
      obtain ⟨q, rfl⟩ := exists_of_hasRoot (Bool.not_eq_false _ ▸ hfalse)
      obtain ⟨more, rfl⟩ := parent_startsWith hd
      rw [List.cons_append, hasRoot_cons] at hroot
      cases hroot

/-- A parent has one component less; a path that is only a `.` has none to lose. -/
theorem body_parent {p d : OsString} (hd : parent p = some d) :
    (body p = [] ∧ d = []) ∨ ∃ c, body p = body d ++ [c] := by
  rcases parent_segments hd with
    ⟨_, hback, rfl⟩ | ⟨segs, blanks, seg, rest, hsegments, rfl, hskipped, hblank, _⟩
  · rw [body_eq_backSegments, hback]
    exact .inl ⟨rfl, rfl⟩
  · obtain ⟨c, hc⟩ := parseSegment_of_not_blank hblank
    rw [List.filterMap_append, List.append_eq_nil_iff] at hskipped
    refine .inr ⟨c, ?_⟩
    rw [body_lead_append ⟨_, hsegments.symm⟩, body_eq_bodySegments, hsegments, List.filterMap_append,
      List.filterMap_append, List.filterMap_cons, hc, hskipped.1, hskipped.2]
    rfl

/-- The parent of a path from the root on has one component less; only the root has
none. -/
theorem parent_eq_some {p d : OsString} (h : hasRoot p = true) (hd : parent p = some d) :
    hasRoot d = true ∧ ∃ c, body p = body d ++ [c] := by
  have hroot := (hasRoot_parent hd).trans h
  rcases body_parent hd with ⟨_, rfl⟩ | hbody
  · cases hroot
  · exact ⟨hroot, hbody⟩

theorem parent_eq_none {p : OsString} (hd : parent p = none) : body p = [] := by
  rw [parent] at hd
  cases hback : backSegments p with
  | nil =>
      rw [body_eq_backSegments, hback]
      rfl
  | cons seg segs =>
      rw [hback] at hd
      cases hd

theorem ne_nil_of_parent {p d : OsString} (hd : parent p = some d) : p ≠ [] := by
  rintro rfl
  cases hd

/-- The parent of a path with one separator at its front has one separator there. -/
theorem single_parent {p d : OsString} (hsingle : hasRoot (p.drop 1) = false)
    (hd : parent p = some d) : hasRoot (d.drop 1) = false := by
  by_contra hroot
  obtain ⟨rest, hrest⟩ := exists_of_hasRoot (Bool.not_eq_false _ ▸ hroot)
  obtain ⟨more, rfl⟩ := parent_startsWith hd
  have hlen : 1 ≤ d.length := by
    by_contra hshort
    rw [List.drop_eq_nil_of_le (by omega)] at hrest
    cases hrest
  rw [List.drop_append_of_le_length hlen, hrest, List.cons_append, hasRoot_cons] at hsingle
  cases hsingle

/-! ## Lexical resolution -/

/-- Where a component leads from the entry with the names `base`, read without the
file system. -/
def lexicalStep (base : List OsString) : Component → List OsString
  | .rootDir => []
  | .curDir => base
  | .parentDir => base.dropLast
  | .normal name => base ++ [name]

def lexicalResolve (base : List OsString) (cs : List Component) : List OsString :=
  cs.foldl lexicalStep base

theorem lexicalResolve_append (base : List OsString) (cs ds : List Component) :
    lexicalResolve base (cs ++ ds) = lexicalResolve (lexicalResolve base cs) ds :=
  List.foldl_append

theorem lexicalResolve_of_hasRoot {p : OsString} (h : hasRoot p = true) (base : List OsString) :
    lexicalResolve base (components p) = lexicalResolve [] (body p) := by
  rw [components_of_hasRoot h]
  rfl

theorem lexicalResolve_of_relative {p : OsString} (h : hasRoot p = false) (base : List OsString) :
    lexicalResolve base (components p) = lexicalResolve base (body p) := by
  rcases components_of_relative h with heq | heq <;> rw [heq]
  rfl

theorem lexicalResolve_normal (base names : List OsString) :
    lexicalResolve base (names.map .normal) = base ++ names := by
  induction names generalizing base with
  | nil => exact (List.append_nil base).symm
  | cons name names ih =>
      rw [List.map_cons]
      show lexicalResolve (base ++ [name]) (names.map .normal) = _
      rw [ih, List.append_assoc, List.singleton_append]

theorem lexicalResolve_parentDir (base : List OsString) (n : Nat) :
    lexicalResolve base (List.replicate n .parentDir) = base.take (base.length - n) := by
  induction n generalizing base with
  | zero => exact (List.take_length).symm
  | succ n ih =>
      rw [List.replicate_succ]
      show lexicalResolve base.dropLast (List.replicate n .parentDir) = _
      rw [ih, List.length_dropLast, List.dropLast_eq_take, List.take_take]
      congr 1
      omega

/-- The components never lead above the entry that is `depth` names up. -/
def staysInside : Nat → List Component → Bool
  | _, [] => true
  | depth, .normal _ :: cs => staysInside (depth + 1) cs
  | 0, .parentDir :: _ => false
  | depth + 1, .parentDir :: cs => staysInside depth cs
  | depth, .curDir :: cs => staysInside depth cs
  | _, .rootDir :: _ => false

/-- What stays inside leads to the same place below any entry. -/
theorem lexicalResolve_inside {cs : List Component} (base names : List OsString)
    (h : staysInside names.length cs = true) :
    lexicalResolve (base ++ names) cs = base ++ lexicalResolve names cs := by
  induction cs generalizing names with
  | nil => rfl
  | cons c cs ih =>
      cases c with
      | rootDir => cases h
      | curDir => exact ih names h
      | normal name =>
          have hlen : staysInside (names ++ [name]).length cs = true := by
            rw [List.length_append]
            exact h
          show lexicalResolve (base ++ names ++ [name]) cs = _
          rw [List.append_assoc]
          exact ih _ hlen
      | parentDir =>
          rcases List.eq_nil_or_concat names with rfl | ⟨names, name, rfl⟩
          · cases h
          · rw [List.concat_eq_append] at h ⊢
            rw [List.length_append] at h
            show lexicalResolve (base ++ (names ++ [name])).dropLast cs =
              base ++ lexicalResolve (names ++ [name]).dropLast cs
            rw [← List.append_assoc, List.dropLast_concat, List.dropLast_concat]
            exact ih names h

/-! ## What a path asks to be looked up

A path that ends in a separator or a `.` asks for a directory. -/

def endsBlank (p : OsString) : Bool := ((p.splitOn sep).getLast?.map blank).getD true

/-- The components to be looked up, with a `.` at the end for such a path. -/
def steps (p : OsString) : List Component :=
  body p ++ if endsBlank p then [.curDir] else []

theorem steps_ne_nil (p : OsString) : steps p ≠ [] := by
  intro hnil
  obtain ⟨hbody, hdot⟩ := List.append_eq_nil_iff.mp hnil
  cases hblank : endsBlank p with
  | true =>
      rw [hblank, if_pos rfl] at hdot
      cases hdot
  | false =>
      obtain ⟨seg, hseg⟩ : ∃ seg, (p.splitOn sep).getLast? = some seg :=
        ⟨_, List.getLast?_eq_some_getLast (List.splitOn_ne_nil sep p)⟩
      rw [endsBlank, hseg] at hblank
      have hnone := List.filterMap_eq_nil_iff.mp hbody seg (List.mem_of_getLast? hseg)
      obtain ⟨c, hc⟩ := parseSegment_of_not_blank hblank
      rw [hnone] at hc
      cases hc

theorem splitOn_ne_nil_getLast? (p q : OsString) :
    ((p ++ sep :: q).splitOn sep).getLast? = (q.splitOn sep).getLast? := by
  obtain ⟨first, rest, heq⟩ := List.exists_cons_of_ne_nil (List.splitOn_ne_nil sep q)
  rw [List.splitOn_append_cons_self, heq, List.getLast?_append]
  simp [List.getLast?_cons]

theorem endsBlank_append_sep (p q : OsString) : endsBlank (p ++ sep :: q) = endsBlank q := by
  rw [endsBlank, splitOn_ne_nil_getLast?, endsBlank]

theorem steps_sep_cons (q : OsString) : steps (sep :: q) = steps q := by
  rw [steps, steps, body_sep_cons, ← endsBlank_append_sep [] q]
  rfl

theorem steps_push {p q : OsString} (h : hasRoot q = false) :
    steps (push p q) = body p ++ steps q := by
  rw [steps, body_push h, List.append_assoc, steps]
  congr 3
  rw [push, h, if_neg Bool.false_ne_true]
  split
  · rename_i hend
    rcases List.eq_nil_or_concat p with rfl | ⟨init, b, rfl⟩
    · rfl
    · rw [List.concat_eq_append] at hend ⊢
      obtain rfl : b = sep := by simpa using hend
      rw [List.append_assoc, List.singleton_append, endsBlank_append_sep]
  · rw [endsBlank_append_sep]

/-- A name pushed last is what the path ends in. -/
theorem endsBlank_push {p q : OsString} (h : hasRoot q = false) :
    endsBlank (push p q) = endsBlank q := by
  have hsteps := steps_push (p := p) h
  rw [steps, body_push h, steps, List.append_assoc] at hsteps
  have hend := List.append_cancel_left (List.append_cancel_left hsteps)
  cases hp : endsBlank (push p q) <;> cases hq : endsBlank q <;> simp [hp, hq] at hend ⊢

theorem endsBlank_entryName {name : OsString} (h : EntryName name) : endsBlank name = false := by
  rw [endsBlank, List.splitOn_eq_singleton h.2.1]
  simp [h.not_blank]

theorem endsBlank_dotDot : endsBlank dotDot = false := by decide

theorem endsBlank_intercalate {segs : List OsString} (h : ∀ seg ∈ segs, sep ∉ seg) :
    endsBlank ([sep].intercalate segs) = (segs.getLast?.map blank).getD true := by
  cases segs with
  | nil => rfl
  | cons seg segs =>
      have hsplit : ([sep].intercalate (seg :: segs)).splitOn sep = seg :: segs :=
        List.splitOn_intercalate sep h (List.cons_ne_nil seg segs)
      rw [endsBlank, hsplit]

theorem endsBlank_lead_append {p : OsString} {segs : List OsString} (h : segs <+: bodySegments p) :
    endsBlank (lead p ++ [sep].intercalate segs) = (segs.getLast?.map blank).getD true := by
  have hsep : ∀ seg ∈ segs, sep ∉ seg := fun seg hseg =>
    sep_not_mem_of_mem_splitOn (h.subset hseg)
  rcases lead_cases p with hlead | hlead | ⟨hlead, rest, hrest⟩
  · rw [hlead, List.nil_append, endsBlank_intercalate hsep]
  · rw [hlead]
    exact (endsBlank_append_sep [] _).trans (endsBlank_intercalate hsep)
  · rw [hlead]
    cases segs with
    | nil => rfl
    | cons seg segs =>
        rw [hrest] at h
        obtain rfl := (List.cons_prefix_cons.mp h).1
        cases segs with
        | nil => rfl
        | cons b segs =>
            rw [List.intercalate_cons_cons, List.nil_append, List.singleton_append,
              endsBlank_append_sep,
              endsBlank_intercalate fun seg hseg => hsep seg (List.mem_cons_of_mem _ hseg),
              List.getLast?_cons_cons]

/-- The parent of a path asks for no more than its components. -/
theorem steps_parent {p d : OsString} (hd : parent p = some d) :
    steps d = body d ∨ (body d = [] ∧ steps d = [.curDir]) := by
  rcases parent_segments hd with ⟨_, _, rfl⟩ | ⟨segs, blanks, seg, rest, hsegments, rfl, _, _, hlast⟩
  · exact .inr ⟨rfl, rfl⟩
  · have hfront : segs <+: bodySegments p := ⟨_, hsegments.symm⟩
    rw [steps, endsBlank_lead_append hfront, body_lead_append hfront]
    cases hend : segs.getLast? with
    | none =>
        obtain rfl := List.getLast?_eq_none_iff.mp hend
        exact .inr ⟨rfl, rfl⟩
    | some last =>
        left
        rw [Option.map_some, Option.getD_some, hlast last hend, if_neg Bool.false_ne_true,
          List.append_nil]

/-- What leads a path leads its parent, if there is a component to cut off. -/
theorem lead_parent {p d : OsString} (hd : parent p = some d) (hne : body p ≠ []) :
    lead d = lead p := by
  rcases parent_segments hd with ⟨_, hback, _⟩ | ⟨segs, blanks, seg, rest, hsegments, rfl, _, _, hlast⟩
  · rw [body_eq_backSegments, hback] at hne
    exact absurd rfl hne
  · have hfront : segs <+: bodySegments p := ⟨_, hsegments.symm⟩
    rcases lead_cases p with hlead | hlead | ⟨hlead, tail, htail⟩
    · rw [hlead, List.nil_append]
      have hp : ¬ (hasRoot p = true) ∧ ¬ (p = dot ∨ dot ++ [sep] <+: p) := by
        rw [lead] at hlead
        split at hlead
        · cases hlead
        · split at hlead
          · cases hlead
          · constructor <;> assumption
      have hstart := parent_startsWith hd
      have hroot := hasRoot_parent hd
      rw [hlead, List.nil_append] at hstart hroot
      rw [lead, hroot, if_neg hp.1, if_neg]
      rintro (hdot | hdot)
      · -- the last segment of the parent is not blank
        have hend := endsBlank_lead_append hfront
        rw [hlead, List.nil_append, hdot] at hend
        cases hlastSeg : segs.getLast? with
        | none =>
            obtain rfl := List.getLast?_eq_none_iff.mp hlastSeg
            cases hdot
        | some last =>
            rw [hlastSeg, Option.map_some, Option.getD_some, hlast last hlastSeg] at hend
            exact absurd hend (by decide)
      · exact hp.2 (.inr (hdot.trans hstart))
    · rw [hlead]
      exact lead_of_hasRoot (hasRoot_cons _)
    · rw [hlead]
      rw [htail] at hfront
      cases segs with
      | nil => rfl
      | cons first segs =>
          obtain rfl := (List.cons_prefix_cons.mp hfront).1
          cases segs with
          | nil => rfl
          | cons next segs =>
              rw [List.intercalate_cons_cons, List.nil_append, lead, if_neg (by simp [hasRoot, dot, sep]),
                if_pos (.inr ⟨_, List.append_assoc _ _ _⟩)]

theorem push_ne_nil {p : OsString} (hp : p ≠ []) (q : OsString) : push p q ≠ [] := by
  rw [push]
  split
  · rename_i hq
    rintro rfl
    cases hq
  · split
    · exact List.append_ne_nil_of_left_ne_nil hp q
    · exact List.append_ne_nil_of_left_ne_nil hp _

/-- What leads a path leads what is pushed to it. -/
theorem lead_push {p q : OsString} (hp : p ≠ []) (h : hasRoot q = false) :
    lead (push p q) = lead p := by
  have hdot : (push p q = dot ∨ dot ++ [sep] <+: push p q) ↔ (p = dot ∨ dot ++ [sep] <+: p) ∨
      hasRoot p = true ∧ (push p q = dot ∨ dot ++ [sep] <+: push p q) := by
    obtain ⟨b, rest, rfl⟩ := List.exists_cons_of_ne_nil hp
    by_cases hb : b = sep
    · simp [hb, hasRoot, dot, sep]
    · rw [push, h, if_neg Bool.false_ne_true]
      cases rest with
      | nil =>
          simp only [List.singleton_append, hasRoot, dot]
          simp [hb]
          exact eq_comm
      | cons c rest =>
          split
          · simp [hb, hasRoot, dot]
          · simp [hb, hasRoot, dot]
  rw [lead, lead, hasRoot_push h]
  by_cases hroot : hasRoot p = true
  · rw [if_pos hroot, if_pos hroot]
  · rw [if_neg hroot, if_neg hroot]
    simp only [hroot, false_and, or_false, Bool.false_eq_true] at hdot
    simp only [hdot]

/-- A lookup asks for `.`, `..` and names an entry can have. -/
theorem entryName_of_mem_steps {p name : OsString} (h : Component.normal name ∈ steps p) :
    EntryName name := by
  rw [steps, List.mem_append] at h
  rcases h with h | h
  · rcases mem_body h with hc | ⟨n, hc, hn⟩
    · cases hc
    · cases hc
      exact hn
  · split at h <;> simp at h

/-- The path without the separators at its end. -/
def trimSeps (p : OsString) : OsString := (p.reverse.dropWhile (· == sep)).reverse

theorem body_trimSeps (p : OsString) : body (trimSeps p) = body p := by
  induction p using List.reverseRecOn with
  | nil => rfl
  | append_singleton p b ih =>
      rw [trimSeps, List.reverse_append, List.reverse_singleton, List.singleton_append]
      by_cases hb : (b == sep) = true
      · obtain rfl : b = sep := by simpa using hb
        rw [List.dropWhile_cons_of_pos (by simp), body_append_sep, body_nil, List.append_nil]
        exact ih
      · rw [List.dropWhile_cons, if_neg hb, List.reverse_cons, List.reverse_reverse]

theorem trimSeps_append (p : OsString) {q : OsString} (hq : body q ≠ []) :
    trimSeps (p ++ q) = p ++ trimSeps q := by
  have hne : q.reverse.dropWhile (· == sep) ≠ [] := by
    intro hnil
    rw [← body_trimSeps, trimSeps, hnil] at hq
    exact hq rfl
  rw [trimSeps, List.reverse_append, List.dropWhile_append, if_neg (by simpa using hne),
    List.reverse_append, List.reverse_reverse, trimSeps]

theorem endsBlank_trimSeps_cons_sep {q : OsString} (hq : body q ≠ []) :
    endsBlank (trimSeps (sep :: q)) = endsBlank (trimSeps q) := by
  have htrim : trimSeps (sep :: q) = [] ++ sep :: trimSeps q := trimSeps_append [sep] hq
  rw [htrim, endsBlank_append_sep]

/-- What is at the end of a path is not changed by what is in front of it. -/
theorem endsBlank_trimSeps_push (p : OsString) {q : OsString} (hroot : hasRoot q = false)
    (hq : body q ≠ []) : endsBlank (trimSeps (push p q)) = endsBlank (trimSeps q) := by
  rw [push, if_neg (Bool.not_eq_true _ ▸ hroot)]
  split
  · rename_i hend
    rw [trimSeps_append p hq]
    rcases List.eq_nil_or_concat p with rfl | ⟨init, b, rfl⟩
    · rfl
    · obtain rfl : b = sep := by simpa using hend
      rw [List.concat_eq_append, List.append_assoc, List.singleton_append, endsBlank_append_sep]
  · rw [← List.singleton_append, ← List.append_assoc, trimSeps_append _ hq, List.append_assoc,
      List.singleton_append, endsBlank_append_sep]

/-! ## Stems -/

/-- What is before the last dot, or everything where that is the first byte or there is none. -/
def stem (file : OsString) : OsString :=
  if file = dotDot then file
  else
    let before := ((file.reverse.dropWhile (· != 46)).drop 1).reverse
    if before.isEmpty then file else before

/-- `Path::file_stem` -/
def fileStem (p : OsString) : Option OsString := (fileName p).map stem

theorem hasRoot_entryName {name : OsString} (h : EntryName name) : hasRoot name = false := by
  obtain ⟨b, rest, rfl⟩ := List.exists_cons_of_ne_nil h.1
  have hb : b ≠ sep := fun hb => h.2.1 (hb ▸ List.mem_cons_self)
  simp [hasRoot, hb]

theorem fileName_entryName {name : OsString} (h : EntryName name) : fileName name = some name := by
  rw [fileName]
  rcases components_of_relative (hasRoot_entryName h) with hc | hc
  · rw [hc, body_entryName h]
    rfl
  · rw [hc, body_entryName h]
    rfl

theorem stem_of_dot_not_mem {file : OsString} (h : 46 ∉ file) : stem file = file := by
  have hdrop : file.reverse.dropWhile (· != 46) = [] := by
    rw [List.dropWhile_eq_nil_iff]
    intro b hb
    have hne : b ≠ 46 := fun heq => h (heq ▸ List.mem_reverse.mp hb)
    simpa using hne
  rw [stem, hdrop]
  simp

/-- A suffix after a dot is not in the stem. -/
theorem stem_suffix {before after : OsString} (hne : before ≠ []) (hdot : before ≠ dot)
    (hafter : 46 ∉ after) : stem (before ++ 46 :: after) = before := by
  have hdrop : (before ++ 46 :: after).reverse.dropWhile (· != 46) = 46 :: before.reverse := by
    rw [List.reverse_append, List.reverse_cons, List.append_assoc,
      List.dropWhile_append_of_pos, List.singleton_append, List.dropWhile_cons_of_neg (by simp)]
    intro b hb
    have hb' : b ≠ 46 := fun heq => hafter (heq ▸ List.mem_reverse.mp hb)
    simpa using hb'
  have hdotDot : before ++ 46 :: after ≠ dotDot := by
    rcases before with _ | ⟨b, rest⟩
    · exact absurd rfl hne
    · intro heq
      have hb := (List.cons.inj heq).1
      have hrest := (List.cons.inj heq).2
      rcases rest with _ | ⟨c, rest⟩
      · apply hdot
        rw [hb]
        rfl
      · have := congrArg List.length hrest
        simp at this
  rw [stem, if_neg hdotDot, hdrop]
  simp [hne]

end UnixPath

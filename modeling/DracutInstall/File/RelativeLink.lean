/-
`convert_abs_rel`: the text of a relative link.

The two component lists are compared place by place.  A place where they differ
costs a `..` and gives a component of the source, a place where they agree gives
neither, wherever it is.  `convertAbsRel_resolves_iff` says when the text leads
back to the source.
-/
import DracutInstall.Lib.UnixPath

namespace DracutInstall
namespace File

open ByteCodec UnixPath

/-- `itertools::EitherOrBoth`. -/
inductive EitherOrBoth (α β : Type) where
  | both (a : α) (b : β)
  | left (a : α)
  | right (b : β)

/-- `Itertools::zip_longest`. -/
def zipLongest {α β : Type} : List α → List β → List (EitherOrBoth α β)
  | a :: as, b :: bs => .both a b :: zipLongest as bs
  | as, [] => as.map .left
  | [], bs => bs.map .right

/-- What one place adds to `rest` and to `target_rel`. -/
def relPart : EitherOrBoth Component Component → Option (OsString × OsString)
  | .both a b => if a = b then some ([], []) else some (a.asOsStr, dotDot)
  | .left a => some (a.asOsStr, [])
  | .right _ => none

/-- `convert_abs_rel`, with `none` for "cant get parent". -/
def convertAbsRel (source target : OsString) : Option OsString := do
  let dir ← parent target
  let parts := (zipLongest (components source) (components dir)).filterMap relPart
  let (rest, targetRel) := parts.foldl (fun out part => (push out.1 part.1, push out.2 part.2))
    ([], [])
  pure (push targetRel rest)

/-! ## What the text is made of -/

section Places

variable {α β : Type} [DecidableEq α] [DecidableEq β]

/-- The places at which two lists differ. -/
def ups : List α → List α → Nat
  | a :: as, b :: bs => (if a = b then 0 else 1) + ups as bs
  | _, _ => 0

/-- The first list without the places at which they agree. -/
def kept : List α → List α → List α
  | a :: as, b :: bs => if a = b then kept as bs else a :: kept as bs
  | as, [] => as
  | [], _ => []

theorem ups_map {f : α → β} (hf : Function.Injective f) :
    ∀ as bs : List α, ups (as.map f) (bs.map f) = ups as bs
  | a :: as, b :: bs => by
      rw [List.map_cons, List.map_cons, ups, ups, ups_map hf as bs]
      simp only [hf.eq_iff]
  | [], _ => by simp [ups]
  | a :: as, [] => rfl

theorem kept_map {f : α → β} (hf : Function.Injective f) :
    ∀ as bs : List α, kept (as.map f) (bs.map f) = (kept as bs).map f
  | a :: as, b :: bs => by
      rw [List.map_cons, List.map_cons, kept, kept, kept_map hf as bs]
      by_cases h : a = b
      · rw [if_pos h, if_pos (congrArg f h)]
      · rw [if_neg h, if_neg fun heq => h (hf heq), List.map_cons]
  | [], [] => rfl
  | [], b :: bs => rfl
  | a :: as, [] => rfl

theorem kept_subset : ∀ (as bs : List α) {a : α}, a ∈ kept as bs → a ∈ as
  | a :: as, b :: bs, x, h => by
      rw [kept] at h
      split at h
      · exact List.mem_cons_of_mem _ (kept_subset as bs h)
      · rcases List.mem_cons.mp h with rfl | h
        · exact List.mem_cons_self
        · exact List.mem_cons_of_mem _ (kept_subset as bs h)
  | as, [], _, h => by
      cases as <;> exact h
  | [], _ :: _, _, h => h

theorem ups_le : ∀ as bs : List α, ups as bs ≤ bs.length
  | a :: as, b :: bs => by
      have h := ups_le as bs
      rw [ups, List.length_cons]
      split <;> omega
  | [], _ => Nat.zero_le _
  | _ :: _, [] => Nat.zero_le _

/-- Every place of the second list counts when the first is as long and differs
everywhere. -/
theorem ups_eq_length : ∀ as bs : List α,
    ups as bs = bs.length ↔ bs.length ≤ as.length ∧ ∀ j < bs.length, as[j]? ≠ bs[j]?
  | a :: as, b :: bs => by
      have hle := ups_le as bs
      have ih := ups_eq_length as bs
      rw [ups, List.length_cons, List.length_cons]
      by_cases h : a = b
      · refine iff_of_false (by rw [if_pos h]; omega) fun hall => ?_
        exact hall.2 0 (Nat.succ_pos _) (by rw [h]; rfl)
      · rw [if_neg h]
        constructor
        · intro heq
          obtain ⟨hlen, hall⟩ := ih.mp (by omega)
          refine ⟨by omega, fun j hj => ?_⟩
          cases j with
          | zero => exact fun heq => h (Option.some.inj heq)
          | succ j => exact hall j (by omega)
        · rintro ⟨hlen, hall⟩
          have := ih.mpr ⟨by omega, fun j hj => hall (j + 1) (by omega)⟩
          omega
  | [], [] => by simp [ups]
  | [], b :: bs => by simp [ups]
  | a :: as, [] => by simp [ups]

/-- Nothing is left out when every place of the second list counts. -/
theorem kept_eq_self : ∀ as bs : List α, ups as bs = bs.length → kept as bs = as
  | a :: as, b :: bs, h => by
      have hle := ups_le as bs
      rw [ups, List.length_cons] at h
      by_cases hab : a = b
      · rw [if_pos hab] at h
        omega
      · rw [if_neg hab] at h
        rw [kept, if_neg hab, kept_eq_self as bs (by omega)]
  | [], [], _ => rfl
  | [], _ :: _, h => by simp [ups] at h
  | _ :: _, [], _ => rfl

/-- Nothing is kept and no place counts where the first list begins the second. -/
theorem kept_eq_nil : ∀ as bs : List α, ups as bs = 0 → kept as bs = [] → as <+: bs
  | a :: as, b :: bs, hups, hkept => by
      rw [ups] at hups
      rw [kept] at hkept
      by_cases h : a = b
      · rw [if_pos h] at hkept
        exact List.cons_prefix_cons.mpr ⟨h, kept_eq_nil as bs (by omega) hkept⟩
      · rw [if_neg h] at hkept
        cases hkept
  | [], _, _, _ => List.nil_prefix
  | _ :: _, [], _, hkept => by cases hkept

/-- Climbing from the second list and going down what is kept leads to the first one
exactly if the second is no longer and does not come back to it. -/
theorem take_ups_kept : ∀ as bs : List α,
    bs.take (bs.length - ups as bs) ++ kept as bs = as ↔
      bs.length ≤ as.length ∧ ∀ i j, i ≤ j → j < bs.length → as[j]? = bs[j]? → as[i]? = bs[i]?
  | a :: as, b :: bs => by
      have hle := ups_le as bs
      rw [ups, kept, List.length_cons, List.length_cons]
      by_cases h : a = b
      · subst h
        rw [if_pos rfl, if_pos rfl, show bs.length + 1 - (0 + ups as bs) = bs.length - ups as bs + 1 by
          omega, List.take_succ_cons, List.cons_append, List.cons.injEq, and_iff_right rfl,
          take_ups_kept as bs]
        constructor
        · rintro ⟨hlen, hall⟩
          refine ⟨by omega, fun i j hij hj heq => ?_⟩
          cases i with
          | zero => rfl
          | succ i =>
              cases j with
              | zero => omega
              | succ j => exact hall i j (by omega) (by omega) heq
        · rintro ⟨hlen, hall⟩
          exact ⟨by omega, fun i j hij hj heq => hall (i + 1) (j + 1) (by omega) (by omega) heq⟩
      · rw [if_neg h, if_neg h]
        -- the first place counts, so that every later one has to
        have hall := ups_eq_length as bs
        constructor
        · intro heq
          have hzero : bs.length + 1 - (1 + ups as bs) = 0 := by
            rcases Nat.eq_zero_or_pos (bs.length + 1 - (1 + ups as bs)) with hz | hp
            · exact hz
            · obtain ⟨n, hn⟩ : ∃ n, bs.length + 1 - (1 + ups as bs) = n + 1 :=
                ⟨bs.length - ups as bs - 1, by omega⟩
              rw [hn, List.take_succ_cons, List.cons_append, List.cons.injEq] at heq
              exact absurd heq.1.symm h
          obtain ⟨hlen, hne⟩ := hall.mp (by omega)
          refine ⟨by omega, fun i j hij hj hj' => ?_⟩
          cases j with
          | zero => exact absurd (Option.some.inj hj') h
          | succ j => exact absurd hj' (hne j (by omega))
        · rintro ⟨hlen, hback⟩
          have heq : ups as bs = bs.length := hall.mpr ⟨by omega, fun j hj heq =>
            h (Option.some.inj (hback 0 (j + 1) (Nat.zero_le _) (by omega) heq))⟩
          rw [heq, show bs.length + 1 - (1 + bs.length) = 0 by omega, List.take_zero,
            List.nil_append, kept_eq_self as bs heq]
  | [], [] => by simp [kept, ups]
  | [], b :: bs => by simp [kept, ups]
  | a :: as, [] => by simp [kept, ups]

/-- A common beginning does not count. -/
theorem kept_append_left {cs as bs : List α} :
    kept (cs ++ as) (cs ++ bs) = kept as bs ∧ ups (cs ++ as) (cs ++ bs) = ups as bs := by
  induction cs with
  | nil => exact ⟨rfl, rfl⟩
  | cons c cs ih =>
      rw [List.cons_append, List.cons_append, kept, ups, if_pos rfl, if_pos rfl, Nat.zero_add]
      exact ih

end Places

theorem Component.asOsStr_body {p : OsString} {c : Component} (h : c ∈ body p) :
    hasRoot c.asOsStr = false ∧ body c.asOsStr = [c] := by
  rcases mem_body h with rfl | ⟨name, rfl, hname⟩
  · exact ⟨rfl, body_dotDot⟩
  · refine ⟨?_, body_entryName hname⟩
    rw [Bool.eq_false_iff]
    intro hroot
    obtain ⟨q, hq⟩ := exists_of_hasRoot hroot
    rw [Component.asOsStr] at hq
    exact hname.2.1 (hq ▸ List.mem_cons_self)

/-- Pushing part after part appends the bodies. -/
theorem foldl_push (parts : List (OsString × OsString))
    (hparts : ∀ x ∈ parts, hasRoot x.1 = false ∧ hasRoot x.2 = false) (out : OsString × OsString)
    (hout : hasRoot out.1 = false ∧ hasRoot out.2 = false) :
    let res := parts.foldl (fun out part => (push out.1 part.1, push out.2 part.2)) out
    (hasRoot res.1 = false ∧ hasRoot res.2 = false) ∧
      body res.1 = body out.1 ++ parts.flatMap (fun x => body x.1) ∧
      body res.2 = body out.2 ++ parts.flatMap (fun x => body x.2) := by
  induction parts generalizing out with
  | nil => exact ⟨hout, (List.append_nil _).symm, (List.append_nil _).symm⟩
  | cons part parts ih =>
      obtain ⟨h1, h2⟩ := hparts part List.mem_cons_self
      obtain ⟨hroots, hrest, hrel⟩ := ih (fun x hx => hparts x (List.mem_cons_of_mem _ hx))
        (push out.1 part.1, push out.2 part.2)
        ⟨(hasRoot_push h1).trans hout.1, (hasRoot_push h2).trans hout.2⟩
      refine ⟨hroots, ?_, ?_⟩
      · rw [List.foldl_cons, hrest, body_push h1, List.flatMap_cons, List.append_assoc]
      · rw [List.foldl_cons, hrel, body_push h2, List.flatMap_cons, List.append_assoc]

/-- The parts of two bodies. -/
theorem relParts_bodies {p : OsString} :
    ∀ (as bs : List Component), (∀ c ∈ as, c ∈ body p) →
      (∀ x ∈ (zipLongest as bs).filterMap relPart, hasRoot x.1 = false ∧ hasRoot x.2 = false) ∧
      ((zipLongest as bs).filterMap relPart).flatMap (fun x => body x.1) = kept as bs ∧
      ((zipLongest as bs).filterMap relPart).flatMap (fun x => body x.2) =
        List.replicate (ups as bs) .parentDir := by
  intro as
  induction as with
  | nil =>
      intro bs _
      have hnone : (zipLongest ([] : List Component) bs).filterMap relPart = [] := by
        cases bs with
        | nil => rfl
        | cons b bs =>
            rw [zipLongest, List.filterMap_map, List.filterMap_eq_nil_iff]
            · exact fun _ _ => rfl
            · exact fun h => nomatch h
      have hkept : kept ([] : List Component) bs = [] := by cases bs <;> rfl
      have hups : ups ([] : List Component) bs = 0 := by cases bs <;> rfl
      rw [hnone, hkept, hups]
      exact ⟨fun _ h => (nomatch h), rfl, rfl⟩
  | cons a as ih =>
      intro bs has
      obtain ⟨hroot, hbody⟩ := Component.asOsStr_body (has a List.mem_cons_self)
      have has' : ∀ c ∈ as, c ∈ body p := fun c hc => has c (List.mem_cons_of_mem _ hc)
      cases bs with
      | nil =>
          obtain ⟨hroots, hrest, hrel⟩ := ih [] has'
          have hkept : kept as [] = as := by cases as <;> rfl
          have hups : ups as [] = 0 := by cases as <;> rfl
          have hzip : zipLongest as ([] : List Component) = as.map .left := by cases as <;> rfl
          rw [hzip] at hroots hrest hrel
          rw [zipLongest, List.map_cons,
            List.filterMap_cons_some (show relPart (.left a) = some (a.asOsStr, []) from rfl)]
          refine ⟨?_, ?_, ?_⟩
          · intro x hx
            rcases List.mem_cons.mp hx with rfl | hx
            · exact ⟨hroot, rfl⟩
            · exact hroots x hx
          · rw [List.flatMap_cons, hbody, hrest, hkept]
            rfl
          · rw [List.flatMap_cons, hrel, hups]
            rfl
      | cons b bs =>
          obtain ⟨hroots, hrest, hrel⟩ := ih bs has'
          rw [zipLongest]
          by_cases hab : a = b
          · rw [List.filterMap_cons_some (show relPart (.both a b) = some ([], []) from if_pos hab)]
            refine ⟨?_, ?_, ?_⟩
            · intro x hx
              rcases List.mem_cons.mp hx with rfl | hx
              · exact ⟨rfl, rfl⟩
              · exact hroots x hx
            · rw [List.flatMap_cons, hrest, kept, if_pos hab]
              rfl
            · rw [List.flatMap_cons, hrel, ups, if_pos hab, Nat.zero_add]
              rfl
          · rw [List.filterMap_cons_some
              (show relPart (.both a b) = some (a.asOsStr, dotDot) from if_neg hab)]
            refine ⟨?_, ?_, ?_⟩
            · intro x hx
              rcases List.mem_cons.mp hx with rfl | hx
              · exact ⟨hroot, rfl⟩
              · exact hroots x hx
            · rw [List.flatMap_cons, hbody, hrest, kept, if_neg hab]
              rfl
            · rw [List.flatMap_cons, hrel, body_dotDot, ups, if_neg hab, Nat.add_comm,
                List.replicate_succ]
              rfl

theorem zipLongest_append {α β : Type} (as as' : List α) (bs bs' : List β)
    (h : as.length = bs.length) :
    zipLongest (as ++ as') (bs ++ bs') = zipLongest as bs ++ zipLongest as' bs' := by
  induction as generalizing bs with
  | nil =>
      obtain rfl : bs = [] := List.length_eq_zero_iff.mp h.symm
      rfl
  | cons a as ih =>
      obtain ⟨b, bs, rfl⟩ := List.exists_cons_of_length_eq_add_one h.symm
      have hlen : as.length = bs.length := Nat.succ.inj h
      rw [List.cons_append, List.cons_append, zipLongest, zipLongest, ih bs hlen,
        List.cons_append]

/-- Components that agree add nothing. -/
theorem foldl_push_agreeing (cs : List Component) :
    ((zipLongest cs cs).filterMap relPart).foldl
      (fun out part => (push out.1 part.1, push out.2 part.2)) ([], []) =
        (([], []) : OsString × OsString) := by
  induction cs with
  | nil => rfl
  | cons c cs ih =>
      rw [zipLongest, List.filterMap_cons_some (show relPart (.both c c) = some ([], []) from
        if_pos rfl), List.foldl_cons]
      exact ih

theorem leadComponents_of_hasRoot {p q : OsString} (hp : hasRoot p = true) (hq : hasRoot q = true) :
    leadComponents p = leadComponents q := by
  rw [leadComponents, leadComponents, lead_of_hasRoot hp, lead_of_hasRoot hq]

/-- What is pushed together comes from the bodies, if one thing leads both paths. -/
theorem relParts_bodies_of_lead {source dir : OsString}
    (hlead : leadComponents source = leadComponents dir) :
    ((zipLongest (components source) (components dir)).filterMap relPart).foldl
        (fun out part => (push out.1 part.1, push out.2 part.2)) ([], []) =
      ((zipLongest (body source) (body dir)).filterMap relPart).foldl
        (fun out part => (push out.1 part.1, push out.2 part.2)) (([], []) : OsString × OsString) := by
  rw [components_eq, components_eq, hlead, zipLongest_append _ _ _ _ rfl, List.filterMap_append,
    List.foldl_append, foldl_push_agreeing]

/-- The text climbs once for every place that differs and goes down what is kept. -/
theorem convertAbsRel_body {source target dir : OsString} (hdir : parent target = some dir)
    (hlead : leadComponents source = leadComponents dir) :
    ∃ text, convertAbsRel source target = some text ∧ hasRoot text = false ∧
      body text = List.replicate (ups (body source) (body dir)) .parentDir ++
        kept (body source) (body dir) := by
  obtain ⟨hroots, hrest, hrel⟩ := relParts_bodies (p := source) (body source) (body dir)
    fun _ h => h
  obtain ⟨⟨h1, h2⟩, hbody1, hbody2⟩ := foldl_push
    ((zipLongest (body source) (body dir)).filterMap relPart) hroots ([], []) ⟨rfl, rfl⟩
  refine ⟨_, ?_, (hasRoot_push h1).trans h2, ?_⟩
  · rw [convertAbsRel, hdir]
    show some _ = _
    rw [relParts_bodies_of_lead hlead]
  · rw [body_push h1, hbody1, hbody2, hrest, hrel, body_nil]
    rfl

/-- The text is empty where the source leads to the directory of the link, or above it on
the way there. -/
theorem convertAbsRel_eq_nil_iff {source target dir : OsString} (hdir : parent target = some dir)
    (hlead : leadComponents source = leadComponents dir) :
    convertAbsRel source target = some [] ↔ body source <+: body dir := by
  constructor
  · intro h
    obtain ⟨text, htext, _, hbody⟩ := convertAbsRel_body hdir hlead
    obtain rfl := Option.some.inj (htext.symm.trans h)
    obtain ⟨hups, hkept⟩ := List.append_eq_nil_iff.mp hbody.symm
    exact kept_eq_nil _ _ ((List.replicate_eq_nil_iff _).mp hups) hkept
  · rintro ⟨rest, hrest⟩
    rw [convertAbsRel, hdir]
    show some _ = _
    rw [relParts_bodies_of_lead hlead, ← hrest]
    have hzip : zipLongest (body source) (body source ++ rest) =
        zipLongest (body source) (body source) ++ rest.map .right := by
      have happend := zipLongest_append (body source) [] (body source) rest rfl
      rw [List.append_nil] at happend
      rw [happend]
      cases rest <;> rfl
    have hnone : (rest.map (.right : Component → EitherOrBoth Component Component)).filterMap relPart = [] := by
      rw [List.filterMap_map]
      exact List.filterMap_eq_nil_iff.mpr fun _ _ => rfl
    rw [hzip, List.filterMap_append, List.foldl_append, foldl_push_agreeing, hnone]
    rfl

/-- The last component of a path that is no shorter and differs there ends the text. -/
theorem relParts_last (as bs : List Component) (a : Component)
    (hlen : bs.length ≤ (as ++ [a]).length)
    (hne : ∀ j < bs.length, (as ++ [a])[j]? ≠ bs[j]?) :
    ∃ init x, (zipLongest (as ++ [a]) bs).filterMap relPart = init ++ [x] ∧ x.1 = a.asOsStr := by
  induction as generalizing bs with
  | nil =>
      cases bs with
      | nil => exact ⟨[], _, rfl, rfl⟩
      | cons b bs =>
          obtain rfl : bs = [] := List.length_eq_zero_iff.mp (by simpa using hlen)
          have hab : a ≠ b := fun heq => hne 0 (Nat.succ_pos _) (by rw [heq]; rfl)
          refine ⟨[], (a.asOsStr, dotDot), ?_, rfl⟩
          rw [List.nil_append, zipLongest,
            List.filterMap_cons_some (show relPart (.both a b) = _ from if_neg hab)]
          rfl
  | cons a' as ih =>
      cases bs with
      | nil =>
          refine ⟨(a' :: as).map fun c => (c.asOsStr, []), (a.asOsStr, []), ?_, rfl⟩
          have hzip : zipLongest (a' :: as ++ [a]) ([] : List Component) =
              (a' :: as ++ [a]).map .left := rfl
          have hpart : relPart ∘ EitherOrBoth.left =
              fun c : Component => some (c.asOsStr, ([] : OsString)) := rfl
          rw [hzip, List.filterMap_map, hpart, List.filterMap_eq_map', List.map_append]
          rfl
      | cons b bs =>
          have hab : a' ≠ b := fun heq => hne 0 (Nat.succ_pos _) (by rw [heq]; rfl)
          obtain ⟨init, x, heq, hx⟩ := ih bs (by simpa using hlen) fun j hj =>
            hne (j + 1) (Nat.succ_lt_succ hj)
          refine ⟨(a'.asOsStr, dotDot) :: init, x, ?_, hx⟩
          rw [List.cons_append, zipLongest,
            List.filterMap_cons_some (show relPart (.both a' b) = _ from if_neg hab), heq]
          rfl

theorem Component.endsBlank_body {p : OsString} {c : Component} (h : c ∈ body p) :
    endsBlank c.asOsStr = false := by
  rcases mem_body h with rfl | ⟨name, rfl, hname⟩
  · exact endsBlank_dotDot
  · exact endsBlank_entryName hname

/-- Two paths that agree up to some place and nowhere behind it. -/
theorem convertAbsRel_common {source target dir : OsString} {c u v : List Component}
    (hdir : parent target = some dir) (hlead : leadComponents source = leadComponents dir)
    (hv : body source = c ++ v) (hu : body dir = c ++ u) (hlen : u.length ≤ v.length) (hne : ∀ j < u.length, v[j]? ≠ u[j]?) :
    ∃ text, convertAbsRel source target = some text ∧ hasRoot text = false ∧
      body text = List.replicate u.length .parentDir ++ v ∧
      (text ≠ [] → endsBlank text = false) := by
  obtain ⟨text, htext, hroot, hbody⟩ := convertAbsRel_body hdir hlead
  have hups : ups v u = u.length := (ups_eq_length v u).mpr ⟨hlen, hne⟩
  rw [hv, hu, kept_append_left.1, kept_append_left.2, hups, kept_eq_self v u hups] at hbody
  refine ⟨text, htext, hroot, hbody, fun hnonempty => ?_⟩
  rw [convertAbsRel, hdir, Option.bind_eq_bind, Option.bind_some] at htext
  dsimp only at htext
  rw [relParts_bodies_of_lead hlead, hv, hu, zipLongest_append _ _ _ _ rfl, List.filterMap_append,
    List.foldl_append, foldl_push_agreeing] at htext
  rcases List.eq_nil_or_concat v with rfl | ⟨as, a, rfl⟩
  · obtain rfl : u = [] := List.length_eq_zero_iff.mp (Nat.le_zero.mp hlen)
    exact absurd (Option.some.inj htext).symm hnonempty
  · rw [List.concat_eq_append] at hv hlen hne htext
    obtain ⟨init, x, hparts, hx⟩ := relParts_last as u a hlen hne
    have hmem : ∀ k ∈ as ++ [a], k ∈ body source := fun k hk => by
      rw [hv]
      exact List.mem_append_right _ hk
    obtain ⟨hroots, _, _⟩ := relParts_bodies (p := source) (as ++ [a]) u hmem
    rw [hparts] at htext hroots
    have hlast := hroots x (by simp)
    obtain ⟨⟨h1, h2⟩, _, _⟩ := foldl_push init
      (fun y hy => hroots y (List.mem_append_left _ hy)) ([], []) ⟨rfl, rfl⟩
    rw [List.foldl_append] at htext
    obtain rfl := Option.some.inj htext
    show endsBlank (push (push _ x.2) (push _ x.1)) = false
    rw [endsBlank_push ((hasRoot_push hlast.1).trans h1), endsBlank_push hlast.1, hx]
    exact Component.endsBlank_body (hmem a (by simp))

theorem Component.normal_injective : Function.Injective Component.normal :=
  fun _ _ h => Component.normal.inj h

/-- Read from the directory of the link the text leads to the source, if that
directory is not deeper than the source and, where it has left the way to the
source, does not come back to a name the source has at the same place. -/
theorem convertAbsRel_resolves_iff (source target : OsString) (S P : List OsString)
    (name : OsString) (hsource : components source = .rootDir :: S.map .normal)
    (htarget : components target = .rootDir :: (P ++ [name]).map .normal) :
    (∃ dir text, parent target = some dir ∧ convertAbsRel source target = some text ∧
      lexicalResolve (lexicalResolve [] (components dir)) (components text) =
        lexicalResolve [] (components source)) ↔
    P.length ≤ S.length ∧
      ∀ i j, i ≤ j → j < P.length → S[j]? = P[j]? → S[i]? = P[i]? := by
  obtain ⟨hsourceRoot, hsourceBody⟩ := hasRoot_of_components hsource
  obtain ⟨htargetRoot, htargetBody⟩ := hasRoot_of_components htarget
  obtain ⟨dir, hdir⟩ : ∃ dir, parent target = some dir := by
    cases hd : parent target with
    | some dir => exact ⟨dir, rfl⟩
    | none =>
        have hempty := parent_eq_none hd
        rw [htargetBody] at hempty
        simp at hempty
  obtain ⟨hdirRoot, c, hbody⟩ := parent_eq_some htargetRoot hdir
  have hdirBody : body dir = P.map .normal := by
    rw [htargetBody, List.map_append] at hbody
    exact (List.append_inj_left' hbody rfl).symm
  obtain ⟨text, htext, hroot, htextBody⟩ := convertAbsRel_body hdir
    (leadComponents_of_hasRoot hsourceRoot hdirRoot)
  have hresolve : lexicalResolve (lexicalResolve [] (components dir)) (components text) =
      P.take (P.length - ups S P) ++ kept S P := by
    have hbase : lexicalResolve [] (P.map .normal) = P := lexicalResolve_normal [] P
    rw [lexicalResolve_of_hasRoot hdirRoot, lexicalResolve_of_relative hroot, htextBody, hdirBody,
      hsourceBody, ups_map Component.normal_injective, kept_map Component.normal_injective,
      lexicalResolve_append, hbase, lexicalResolve_parentDir, lexicalResolve_normal]
  have hgoal : lexicalResolve [] (components source) = S := by
    rw [lexicalResolve_of_hasRoot hsourceRoot, hsourceBody, lexicalResolve_normal, List.nil_append]
  rw [← take_ups_kept S P, hgoal]
  constructor
  · rintro ⟨dir', text', hdir', htext', heq⟩
    obtain rfl : dir = dir' := Option.some.inj (hdir.symm.trans hdir')
    obtain rfl : text = text' := Option.some.inj (htext.symm.trans htext')
    exact hresolve.symm.trans heq
  · exact fun heq => ⟨dir, text, hdir, htext, hresolve.trans heq⟩

theorem convertAbsRel_lib64 :
    ∃ dir text, parent (ascii "/var/libc.so") = some dir ∧
      convertAbsRel (ascii "/lib64/libc.so.6") (ascii "/var/libc.so") = some text ∧
      lexicalResolve (lexicalResolve [] (components dir)) (components text) =
        lexicalResolve [] (components (ascii "/lib64/libc.so.6")) :=
  (convertAbsRel_resolves_iff (ascii "/lib64/libc.so.6") (ascii "/var/libc.so")
    [ascii "lib64", ascii "libc.so.6"] [ascii "var"] (ascii "libc.so") (by decide)
    (by decide)).mpr ⟨by decide, fun i j hij hj heq => by
      obtain rfl : i = j := by
        simp at hj
        omega
      exact heq⟩

/-- A link two directories deep to an entry of the root. -/
theorem convertAbsRel_deeper :
    ¬ ∃ dir text, parent (ascii "/a/b/l") = some dir ∧
      convertAbsRel (ascii "/x") (ascii "/a/b/l") = some text ∧
      lexicalResolve (lexicalResolve [] (components dir)) (components text) =
        lexicalResolve [] (components (ascii "/x")) := by
  rintro ⟨dir, text, hdir, htext, heq⟩
  obtain rfl : ascii "/a/b" = dir := Option.some.inj hdir
  obtain rfl : ascii "../x" = text := Option.some.inj htext
  exact absurd heq (by decide)

end File
end DracutInstall

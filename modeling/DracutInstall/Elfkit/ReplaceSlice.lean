/-
`replace_slice`: the loop with its indices.

`replaceSliceFuel` computes as the source does, with every index checked and a bound
on the rounds.  It never runs out of its bound or of the buffer, and it puts `dst`
between the pieces that the occurrences of `src` leave; so does `replaceSlice`, which
`ldd` is modelled with.
-/
import DracutInstall.Elfkit.Ldd
import DracutInstall.Lib.Pieces

namespace DracutInstall
namespace Elfkit

open ByteCodec Rust Occurrences

variable {α : Type}

/-- `buf[i..]` -/
def indexFrom (buf : List α) (i : Nat) : Outcome Empty (List α) :=
  if i ≤ buf.length then .ok (buf.drop i) else .panic

/-- `buf[i]` -/
def indexAt (buf : List α) (i : Nat) : Outcome Empty α :=
  match buf[i]? with
  | some b => .ok b
  | none => .panic

/-- `buf.len() - from.len()` -/
def lengthDiff (buf src : List α) : Outcome Empty Nat :=
  if src.length ≤ buf.length then .ok (buf.length - src.length) else .panic

theorem indexFrom_ok {buf : List α} {i : Nat} (h : i ≤ buf.length) :
    indexFrom buf i = .ok (buf.drop i) := if_pos h

theorem indexAt_ok {buf : List α} {i : Nat} (h : i < buf.length) : indexAt buf i = .ok buf[i] := by
  rw [indexAt, List.getElem?_eq_getElem h]

variable [DecidableEq α]

/-- `while i <= buf.len() - from.len()`; its value is `i` and `res` behind the loop. -/
def replaceLoop (buf src dst : List α) : Nat → Nat → List α → Option (Outcome Empty (Nat × List α))
  | 0, _, _ => none
  | fuel + 1, i, res =>
      match lengthDiff buf src with
      | .ok last =>
          if i ≤ last then
            match indexFrom buf i with
            | .ok rest =>
                if src <+: rest then replaceLoop buf src dst fuel (i + src.length) (res ++ dst)
                else
                  match indexAt buf i with
                  | .ok b => replaceLoop buf src dst fuel (i + 1) (res ++ [b])
                  | _ => some .panic
            | _ => some .panic
          else some (.ok (i, res))
      | _ => some .panic

/-- `replace_slice` -/
def replaceSliceFuel (fuel : Nat) (buf src dst : List α) : Option (Outcome Empty (List α)) :=
  if buf.length < src.length then some (.ok buf)
  else
    match replaceLoop buf src dst fuel 0 [] with
    | none => none
    | some (.ok (i, res)) =>
        if i < buf.length then
          match indexFrom buf i with
          | .ok tail => some (.ok (res ++ tail))
          | _ => some .panic
        else some (.ok res)
    | some _ => some .panic

section Loop

variable {buf src dst res : List α} {ps : List (List α)} {fuel i : Nat}

/-- One round, in front of the last place where an occurrence has room. -/
theorem replaceLoop_round (hlen : src.length ≤ buf.length) (hi : i ≤ buf.length - src.length) :
    replaceLoop buf src dst (fuel + 1) i res =
      if src <+: buf.drop i then replaceLoop buf src dst fuel (i + src.length) (res ++ dst)
      else
        match indexAt buf i with
        | .ok b => replaceLoop buf src dst fuel (i + 1) (res ++ [b])
        | _ => some .panic := by
  rw [replaceLoop, lengthDiff, if_pos hlen]
  dsimp only
  rw [if_pos hi, indexFrom_ok (by omega)]

/-- The loop from `i` on writes the pieces of what is left, but for the tail. -/
theorem replaceLoop_pieces (hsrc : src ≠ []) (hlen : src.length ≤ buf.length)
    (res : List α) (hi : i ≤ buf.length) (hfuel : buf.length - i < fuel)
    (hps : Pieces src (buf.drop i) ps) :
    ∃ j res', replaceLoop buf src dst fuel i res = some (.ok (j, res')) ∧ j ≤ buf.length ∧
      res' ++ buf.drop j = res ++ dst.intercalate ps := by
  have hpos := List.length_pos_iff.mpr hsrc
  induction fuel generalizing i ps res with
  | zero => omega
  | succ fuel ih =>
      by_cases hroom : i ≤ buf.length - src.length
      · rw [replaceLoop_round hlen hroom]
        by_cases hfront : src <+: buf.drop i
        · rw [if_pos hfront]
          obtain ⟨rest, hrest⟩ := hfront
          have hdrop : buf.drop (i + src.length) = rest := by
            rw [← List.drop_drop, ← hrest, List.drop_left]
          rw [← hrest] at hps
          obtain ⟨qs, rfl, hqs⟩ := hps.occurs
          rw [← hdrop] at hqs
          obtain ⟨j, res', hloop, hj, heq⟩ := ih (res ++ dst) (by omega) (by omega) hqs
          refine ⟨j, res', hloop, hj, ?_⟩
          rw [heq, intercalate_nil_cons dst hqs.ne_nil, List.append_assoc]
        · have hlt : i < buf.length := by omega
          rw [if_neg hfront, indexAt_ok hlt]
          rw [List.drop_eq_getElem_cons hlt] at hfront hps
          obtain ⟨p, qs, rfl, hqs⟩ := hps.skip hfront
          obtain ⟨j, res', hloop, hj, heq⟩ := ih (res ++ [buf[i]]) hlt (by omega) hqs
          refine ⟨j, res', hloop, hj, ?_⟩
          rw [heq, intercalate_cons_cons, List.append_assoc, List.singleton_append]
      · have hend : replaceLoop buf src dst (fuel + 1) i res = some (.ok (i, res)) := by
          rw [replaceLoop, lengthDiff, if_pos hlen]
          dsimp only
          rw [if_neg hroom]
        obtain rfl := hps.short (by rw [List.length_drop]; omega)
        exact ⟨i, res, hend, hi, by rw [intercalate_singleton]⟩

/-- The walk with a count of the bytes to be left out does the same. -/
theorem replaceFrom_pieces {src dst : List UInt8} (hsrc : src ≠ []) (buf : List UInt8) :
    ∀ skip ps, Pieces src (buf.drop skip) ps → skip ≤ buf.length →
      replaceFrom src dst skip buf = dst.intercalate ps := by
  have hpos := List.length_pos_iff.mpr hsrc
  induction buf with
  | nil =>
      intro skip ps hps _
      rw [List.drop_nil] at hps
      obtain rfl : ps = [[]] := hps.short hpos
      rw [intercalate_singleton, replaceFrom.eq_def]
  | cons b buf ih =>
      intro skip ps hps hskip
      cases skip with
      | succ skip =>
          rw [replaceFrom]
          exact ih skip ps hps (Nat.le_of_succ_le_succ hskip)
      | zero =>
          rw [List.drop_zero] at hps
          rw [replaceFrom]
          by_cases hfront : src <+: b :: buf
          · rw [if_pos hfront]
            obtain ⟨rest, hrest⟩ := hfront
            rw [← hrest] at hps
            obtain ⟨qs, rfl, hqs⟩ := hps.occurs
            have hdrop : buf.drop (src.length - 1) = rest := by
              have hall : (b :: buf).drop src.length = rest := by rw [← hrest, List.drop_left]
              obtain ⟨n, hn⟩ : ∃ n, src.length = n + 1 := ⟨src.length - 1, by omega⟩
              rw [hn, List.drop_succ_cons] at hall
              rw [hn, Nat.add_sub_cancel, hall]
            have hle : src.length ≤ buf.length + 1 := by
              have hall := congrArg List.length hrest
              rw [List.length_append, List.length_cons] at hall
              omega
            rw [← hdrop] at hqs
            rw [ih _ _ hqs (by omega), intercalate_nil_cons dst hqs.ne_nil]
          · rw [if_neg hfront]
            obtain ⟨p, qs, rfl, hqs⟩ := hps.skip hfront
            rw [ih 0 _ hqs (Nat.zero_le _), intercalate_cons_cons]

theorem replaceSliceFuel_pieces (hsrc : src ≠ []) (hfuel : buf.length < fuel)
    (hps : Pieces src buf ps) : replaceSliceFuel fuel buf src dst = some (.ok (dst.intercalate ps)) := by
  rw [replaceSliceFuel]
  by_cases hshort : buf.length < src.length
  · rw [if_pos hshort, hps.short hshort, intercalate_singleton]
  · rw [if_neg hshort]
    obtain ⟨j, res, hloop, hj, heq⟩ : ∃ j res, replaceLoop buf src dst fuel 0 [] =
        some (.ok (j, res)) ∧ j ≤ buf.length ∧ res ++ buf.drop j = [] ++ dst.intercalate ps :=
      replaceLoop_pieces hsrc (Nat.le_of_not_lt hshort) [] (Nat.zero_le _) hfuel hps
    rw [List.nil_append] at heq
    rw [hloop]
    dsimp only
    by_cases htail : j < buf.length
    · rw [if_pos htail, indexFrom_ok hj, ← heq]
    · rw [if_neg htail, ← heq, List.drop_eq_nil_of_le (Nat.le_of_not_lt htail), List.append_nil]

/-- The model of `ldd` replaces as the loop does. -/
theorem replaceSliceFuel_eq {buf src dst : List UInt8} (hsrc : src ≠ [])
    (hfuel : buf.length < fuel) :
    replaceSliceFuel fuel buf src dst = some (.ok (replaceSlice buf src dst)) := by
  obtain ⟨ps, hps⟩ := exists_pieces hsrc buf
  rw [replaceSliceFuel_pieces hsrc hfuel hps, replaceSlice,
    replaceFrom_pieces hsrc buf 0 ps hps (Nat.zero_le _)]

end Loop

/-- `replace_slice` ends within the buffer, and returns the pieces between the
successive leftmost occurrences joined by `dst`. -/
theorem replaceSlice_leftmost (buf src dst : List α) (hsrc : src ≠ []) :
    ∃ ps, Pieces src buf ps ∧ (∀ qs, Pieces src buf qs → qs = ps) ∧ src.intercalate ps = buf ∧
      (∀ fuel, buf.length < fuel →
        replaceSliceFuel fuel buf src dst = some (.ok (dst.intercalate ps))) ∧
      (¬ src <:+: buf → dst.intercalate ps = buf) ∧ (dst = src → dst.intercalate ps = buf) := by
  obtain ⟨ps, hps⟩ := exists_pieces hsrc buf
  refine ⟨ps, hps, fun qs hqs => hps.unique hsrc hqs, hps.intercalate,
    fun fuel hfuel => replaceSliceFuel_pieces hsrc hfuel hps, fun hnone => ?_, fun heq => ?_⟩
  · rw [hps.of_none hnone, intercalate_singleton]
  · rw [heq]
    exact hps.intercalate

/-- An occurrence that begins inside another is not one of the successive ones. -/
theorem replaceSlice_overlapping :
    ∃ ps, Pieces (ascii "aba") (ascii "xababa") ps ∧
      (∀ qs, Pieces (ascii "aba") (ascii "xababa") qs → qs = ps) ∧
      (ascii "aba").intercalate ps = ascii "xababa" ∧
      (∀ fuel, (ascii "xababa").length < fuel →
        replaceSliceFuel fuel (ascii "xababa") (ascii "aba") (ascii "-") =
          some (.ok ((ascii "-").intercalate ps))) ∧
      (¬ ascii "aba" <:+: ascii "xababa" → (ascii "-").intercalate ps = ascii "xababa") ∧
      (ascii "-" = ascii "aba" → (ascii "-").intercalate ps = ascii "xababa") :=
  replaceSlice_leftmost (ascii "xababa") (ascii "aba") (ascii "-") (by decide)

end Elfkit
end DracutInstall

/-
`acl_copy_fd`: the extended attributes of one descriptor, set on another.

`Answers` is what the system answers during one call: the two list calls once, the
calls for an attribute by its place in the list and its name.  Two things keep an
attribute from being copied whole although the result is `Ok`: the function returns
at the first attribute that is missing, and the length given to `fsetxattr` is that
of the first `fgetxattr`, not of the value read after it.
-/
import Mathlib.Data.List.Basic
import DracutInstall.Lib.Outcome

namespace DracutInstall
namespace Acl

open Rust

/-! ## The list of names -/

/-- The loop of `CStrVIterator::next` over the bytes of `s`. -/
def CStrVIterator.scan (s : List UInt8) : List UInt8 → Nat → Option (List UInt8 × List UInt8)
  | [], _ => none
  | elt :: rest, index =>
      if elt = 0 then some (s.splitAt (index + 1)) else scan s rest (index + 1)

/-- `CStrVIterator::next`: a string with its NUL, and the slice behind it. -/
def CStrVIterator.next (s : List UInt8) : Option (List UInt8 × List UInt8) :=
  CStrVIterator.scan s s 0

/-- The strings that are iterated over, without their NUL. -/
def CStrVIterator.collect : Nat → List UInt8 → List (List UInt8)
  | 0, _ => []
  | fuel + 1, s =>
      match CStrVIterator.next s with
      | none => []
      | some (a, b) => a.dropLast :: CStrVIterator.collect fuel b

/-- The names as `flistxattr` writes them. -/
def encode (names : List (List UInt8)) : List UInt8 := names.flatMap fun name => name ++ [0]

theorem encode_cons (name : List UInt8) (names : List (List UInt8)) :
    encode (name :: names) = name ++ 0 :: encode names := by
  rw [encode, List.flatMap_cons, List.append_assoc]
  rfl

theorem CStrVIterator.scan_eq {s name : List UInt8} (h : 0 ∉ name) (rest : List UInt8) (index : Nat) :
    CStrVIterator.scan s (name ++ 0 :: rest) index = some (s.splitAt (index + name.length + 1)) := by
  induction name generalizing index with
  | nil => exact if_pos rfl
  | cons elt name ih =>
      have helt : elt ≠ 0 := (List.ne_of_not_mem_cons h).symm
      rw [List.cons_append, CStrVIterator.scan, if_neg helt, ih (List.not_mem_of_not_mem_cons h),
        List.length_cons]
      congr 2
      omega

theorem CStrVIterator.scan_none {s rest : List UInt8} (h : 0 ∉ rest) (index : Nat) :
    CStrVIterator.scan s rest index = none := by
  induction rest generalizing index with
  | nil => rfl
  | cons elt rest ih =>
      have helt : elt ≠ 0 := (List.ne_of_not_mem_cons h).symm
      rw [CStrVIterator.scan, if_neg helt, ih (List.not_mem_of_not_mem_cons h)]

theorem CStrVIterator.next_eq {name : List UInt8} (h : 0 ∉ name) (rest : List UInt8) :
    CStrVIterator.next (name ++ 0 :: rest) = some (name ++ [0], rest) := by
  have hsplit : name ++ 0 :: rest = (name ++ [0]) ++ rest := by simp
  have hlen : 0 + name.length + 1 = (name ++ [0]).length := by simp
  rw [CStrVIterator.next, CStrVIterator.scan_eq h, List.splitAt_eq, hsplit, hlen, List.take_left,
    List.drop_left]

/-- The iterator gives the names back, and no string for the bytes behind the last NUL. -/
theorem CStrVIterator.collect_encode {names : List (List UInt8)} (h : ∀ name ∈ names, 0 ∉ name)
    {tail : List UInt8} (htail : 0 ∉ tail) {fuel : Nat}
    (hfuel : (encode names ++ tail).length < fuel) :
    CStrVIterator.collect fuel (encode names ++ tail) = names := by
  induction names generalizing fuel with
  | nil =>
      obtain ⟨fuel, rfl⟩ : ∃ n, fuel = n + 1 := ⟨fuel - 1, by omega⟩
      have hnext : CStrVIterator.next (encode [] ++ tail) = none := CStrVIterator.scan_none htail 0
      rw [CStrVIterator.collect, hnext]
  | cons name names ih =>
      obtain ⟨fuel, rfl⟩ : ∃ n, fuel = n + 1 := ⟨fuel - 1, by omega⟩
      have hsplit : encode (name :: names) ++ tail = name ++ 0 :: (encode names ++ tail) := by
        rw [encode_cons, List.append_assoc, List.cons_append]
      rw [hsplit, List.length_append, List.length_cons] at hfuel
      rw [hsplit, CStrVIterator.collect, CStrVIterator.next_eq (h name List.mem_cons_self)]
      dsimp only
      rw [List.dropLast_concat,
        ih (fun other hother => h other (List.mem_cons_of_mem name hother)) (by omega)]

/-! ## The system calls -/

/-- What the system answers.  A list or a value is what there is when it is asked for. -/
structure Answers where
  listSize : Except Errno Nat
  list : Except Errno (List UInt8)
  size : Nat → List UInt8 → Except Errno Nat
  value : Nat → List UInt8 → Except Errno (List UInt8)
  set : Nat → List UInt8 → List UInt8 → Option Errno
  /-- What a new buffer holds. -/
  heap : Nat → Nat → UInt8

def erange : Errno := .other 34

/-- `flistxattr` and `fgetxattr`: nothing is written for the size 0, and no part of
what does not fit. -/
def fill (answer : Except Errno (List UInt8)) (size : Nat) : Except Errno (List UInt8) :=
  match answer with
  | .error e => .error e
  | .ok bytes =>
      if size = 0 then .ok []
      else if size < bytes.length then .error erange
      else .ok bytes

/-- The call an error of `acl_copy_fd` names. -/
inductive AclCall where
  | numBytes
  | names
  | fgetxattr
  | fsetxattr
  deriving DecidableEq, Repr

structure AclError where
  call : AclCall
  errno : Errno
  deriving DecidableEq, Repr

/-- A call of `fsetxattr` on the output, and the attribute it is made for. -/
structure SetCall where
  index : Nat
  name : List UInt8
  value : List UInt8
  deriving DecidableEq, Repr

/-- What the function returns when a list or a value is not to be had. -/
def unlessMissing (call : AclCall) (e : Errno) : Except AclError Unit :=
  if e = .enodata ∨ e = .eopnotsupp then .ok () else .error ⟨call, e⟩

/-- What follows a call of `fsetxattr`: `none` goes on. -/
def afterSet (ignoreEperm : Bool) : Option Errno → Option AclError
  | none => none
  | some e =>
      if e = .eperm then if ignoreEperm then none else some ⟨.fsetxattr, e⟩
      else if e = .eopnotsupp then none
      else some ⟨.fsetxattr, e⟩

/-- The `numBytes` bytes at the front of the buffer that `written` was put into. -/
def passed (heap : Nat → UInt8) (numBytes : Nat) (written : List UInt8) : List UInt8 :=
  written ++ (List.range' written.length (numBytes - written.length)).map heap

variable (sys : Answers) (ignoreEperm : Bool)

/-- The loop over the names, from the `k`-th on, with the calls of `fsetxattr` it makes. -/
def copyNames : Nat → List (List UInt8) → Except AclError Unit × List SetCall
  | _, [] => (.ok (), [])
  | k, name :: names =>
      match sys.size k name with
      | .error e => (unlessMissing .fgetxattr e, [])
      | .ok numBytes =>
          match fill (sys.value k name) numBytes with
          | .error e => (unlessMissing .fgetxattr e, [])
          | .ok buffer =>
              let bytes := passed (sys.heap k) numBytes buffer
              let call : SetCall := ⟨k, name, bytes⟩
              match afterSet ignoreEperm (sys.set k name bytes) with
              | some e => (.error e, [call])
              | none =>
                  let rest := copyNames (k + 1) names
                  (rest.1, call :: rest.2)

/-- `acl_copy_fd` -/
def aclCopyFd : Except AclError Unit × List SetCall :=
  match sys.listSize with
  | .error e => (unlessMissing .numBytes e, [])
  | .ok 0 => (.ok (), [])
  | .ok numBytes =>
      match fill sys.list numBytes with
      | .error e => (unlessMissing .names e, [])
      | .ok names => copyNames sys ignoreEperm 0 (CStrVIterator.collect (names.length + 1) names)

/-! ## One round -/

/-- The name list is obtained, and `names` are in it. -/
def Lists (names : List (List UInt8)) : Prop :=
  (∀ name ∈ names, 0 ∉ name) ∧
    ∃ size tail, 0 < size ∧ sys.listSize = .ok size ∧ 0 ∉ tail ∧
      sys.list = .ok (encode names ++ tail) ∧ (encode names ++ tail).length ≤ size

/-- Both calls of `fgetxattr` for the `k`-th attribute succeed, the second with `bytes`. -/
def Reads (k : Nat) (name bytes : List UInt8) : Prop :=
  ∃ numBytes, sys.size k name = .ok numBytes ∧ fill (sys.value k name) numBytes = .ok bytes

/-- Every attribute that can be read is set to what was read last. -/
def Complete (names : List (List UInt8)) (calls : List SetCall) : Prop :=
  ∀ k name bytes, names[k]? = some name → Reads sys k name bytes → ⟨k, name, bytes⟩ ∈ calls

/-- What can be read has no attribute before it that cannot, and its length does not
change between the two calls. -/
def Undisturbed (names : List (List UInt8)) : Prop :=
  ∀ k name bytes, names[k]? = some name → Reads sys k name bytes →
    sys.size k name = .ok bytes.length ∧
      ∀ j < k, ∀ other, names[j]? = some other → ∃ bytes, Reads sys j other bytes

/-- The attribute's call of `fsetxattr` is made, with the bytes of its buffer. -/
def Sets (k : Nat) (name : List UInt8) (call : SetCall) : Prop :=
  ∃ numBytes bytes, sys.size k name = .ok numBytes ∧
    fill (sys.value k name) numBytes = .ok bytes ∧
    call = ⟨k, name, passed (sys.heap k) numBytes bytes⟩

variable {sys ignoreEperm}

theorem fill_length {answer : Except Errno (List UInt8)} {size : Nat} {bytes : List UInt8}
    (h : fill answer size = .ok bytes) : bytes.length ≤ size := by
  cases answer with
  | error e => cases h
  | ok all =>
      rw [fill] at h
      by_cases hzero : size = 0
      · rw [if_pos hzero] at h
        cases h
        exact Nat.zero_le size
      · rw [if_neg hzero] at h
        split at h
        · cases h
        · cases h
          exact Nat.le_of_not_lt ‹_›

theorem passed_length {heap : Nat → UInt8} {numBytes : Nat} {bytes : List UInt8}
    (h : bytes.length ≤ numBytes) : (passed heap numBytes bytes).length = numBytes := by
  rw [passed, List.length_append, List.length_map, List.length_range']
  omega

theorem passed_self (heap : Nat → UInt8) (bytes : List UInt8) :
    passed heap bytes.length bytes = bytes := by
  rw [passed, Nat.sub_self]
  exact List.append_nil bytes

/-- A buffer is passed on as it was read just if the length has not changed. -/
theorem passed_eq_iff {heap : Nat → UInt8} {numBytes : Nat} {bytes : List UInt8}
    (h : bytes.length ≤ numBytes) : passed heap numBytes bytes = bytes ↔ numBytes = bytes.length := by
  constructor
  · intro heq
    rw [← passed_length h, heq]
  · rintro rfl
    exact passed_self heap bytes

/-! ## The whole loop -/

/-- The first `m` of `names` have been gone through: the calls are those made for them. -/
structure Through (sys : Answers) (k : Nat) (names : List (List UInt8)) (m : Nat)
    (calls : List SetCall) : Prop where
  sets : ∀ j < m, ∀ name, names[j]? = some name → ∃ call ∈ calls, Sets sys (k + j) name call
  only : ∀ call ∈ calls, ∃ j < m, ∃ name, names[j]? = some name ∧ Sets sys (k + j) name call

theorem Through.nil (sys : Answers) (k : Nat) (names : List (List UInt8)) :
    Through sys k names 0 [] where
  sets _ hj := absurd hj (Nat.not_lt_zero _)
  only _ hcall := absurd hcall List.not_mem_nil

theorem Through.cons {k m : Nat} {name : List UInt8} {names : List (List UInt8)} {call : SetCall}
    {calls : List SetCall} (hcall : Sets sys k name call) (h : Through sys (k + 1) names m calls) :
    Through sys k (name :: names) (m + 1) (call :: calls) where
  sets := by
    intro j hj other hother
    cases j with
    | zero =>
        obtain rfl := Option.some.inj hother
        exact ⟨call, List.mem_cons_self, hcall⟩
    | succ j =>
        obtain ⟨c, hc, hsets⟩ := h.sets j (Nat.lt_of_succ_lt_succ hj) other hother
        rw [Nat.add_assoc, Nat.add_comm 1 j] at hsets
        exact ⟨c, List.mem_cons_of_mem call hc, hsets⟩
  only := by
    intro c hc
    rcases List.mem_cons.mp hc with rfl | hc
    · exact ⟨0, Nat.succ_pos m, name, rfl, hcall⟩
    · obtain ⟨j, hj, other, hother, hsets⟩ := h.only c hc
      rw [Nat.add_assoc, Nat.add_comm 1 j] at hsets
      exact ⟨j + 1, Nat.succ_lt_succ hj, other, hother, hsets⟩

/-- Where the loop returns `Ok`, it is at the end or at an attribute that cannot be read. -/
theorem copyNames_ok {k : Nat} {names : List (List UInt8)}
    (h : (copyNames sys ignoreEperm k names).1 = .ok ()) :
    ∃ m, Through sys k names m (copyNames sys ignoreEperm k names).2 ∧
      ∀ name, names[m]? = some name → ¬ ∃ bytes, Reads sys (k + m) name bytes := by
  induction names generalizing k with
  | nil => exact ⟨0, .nil sys k [], fun name hname => by cases hname⟩
  | cons name names ih =>
      -- a name that is not read ends the loop with no call
      have hstop (hread : ¬ ∃ bytes, Reads sys k name bytes) : ∃ m,
          Through sys k (name :: names) m [] ∧
            ∀ other, (name :: names)[m]? = some other → ¬ ∃ bytes, Reads sys (k + m) other bytes := by
        refine ⟨0, .nil sys k _, fun other hother => ?_⟩
        obtain rfl := Option.some.inj hother
        exact hread
      rw [copyNames] at h ⊢
      cases hsize : sys.size k name with
      | error e =>
          rw [hsize] at h
          refine hstop ?_
          rintro ⟨bytes, numBytes, hok, _⟩
          rw [hsize] at hok
          cases hok
      | ok numBytes =>
          rw [hsize] at h
          dsimp only at h ⊢
          cases hvalue : fill (sys.value k name) numBytes with
          | error e =>
              refine hstop ?_
              rintro ⟨bytes, numBytes', hok, hfill⟩
              rw [hsize] at hok
              obtain rfl := Except.ok.inj hok
              rw [hvalue] at hfill
              cases hfill
          | ok bytes =>
              rw [hvalue] at h
              dsimp only at h ⊢
              cases hset : afterSet ignoreEperm
                  (sys.set k name (passed (sys.heap k) numBytes bytes)) with
              | some e =>
                  rw [hset] at h
                  cases h
              | none =>
                  rw [hset] at h
                  obtain ⟨m, hthrough, hend⟩ := ih h
                  refine ⟨m + 1, .cons ⟨numBytes, bytes, hsize, hvalue, rfl⟩ hthrough, ?_⟩
                  intro other hother
                  rw [← Nat.add_assoc, Nat.add_right_comm]
                  exact hend other hother

theorem Sets.reads {k : Nat} {name : List UInt8} {call : SetCall} (h : Sets sys k name call) :
    ∃ bytes, Reads sys k name bytes := by
  obtain ⟨numBytes, bytes, hsize, hvalue, _⟩ := h
  exact ⟨bytes, numBytes, hsize, hvalue⟩

/-- The call made for an attribute has the bytes that were read just if its length has
not changed. -/
theorem Sets.eq_iff {k : Nat} {name bytes : List UInt8} {call : SetCall} (h : Sets sys k name call)
    (hread : Reads sys k name bytes) :
    call = ⟨k, name, bytes⟩ ↔ sys.size k name = .ok bytes.length := by
  obtain ⟨numBytes, written, hsize, hvalue, rfl⟩ := h
  obtain ⟨numBytes', hsize', hvalue'⟩ := hread
  obtain rfl := Except.ok.inj (hsize.symm.trans hsize')
  obtain rfl := Except.ok.inj (hvalue.symm.trans hvalue')
  rw [hsize, Except.ok.injEq, ← passed_eq_iff (fill_length hvalue), SetCall.mk.injEq]
  exact ⟨fun heq => heq.2.2, fun heq => ⟨rfl, rfl, heq⟩⟩

theorem copyNames_complete_iff {names : List (List UInt8)}
    (h : (copyNames sys ignoreEperm 0 names).1 = .ok ()) :
    Complete sys names (copyNames sys ignoreEperm 0 names).2 ↔ Undisturbed sys names := by
  obtain ⟨m, hthrough, hend⟩ := copyNames_ok h
  have hread {j : Nat} {name : List UInt8} (hj : j < m) (hname : names[j]? = some name) :
      ∃ bytes, Reads sys j name bytes := by
    obtain ⟨call, _, hsets⟩ := hthrough.sets j hj name hname
    rw [Nat.zero_add] at hsets
    exact hsets.reads
  constructor
  · intro hcomplete k name bytes hname hreads
    obtain ⟨j, hj, other, hother, hsets⟩ :=
      hthrough.only ⟨k, name, bytes⟩ (hcomplete k name bytes hname hreads)
    rw [Nat.zero_add] at hsets
    have hcopy := hsets
    obtain ⟨_, _, _, _, hcall⟩ := hcopy
    obtain rfl : k = j := congrArg SetCall.index hcall
    obtain rfl : name = other := congrArg SetCall.name hcall
    refine ⟨(Sets.eq_iff hsets hreads).mp rfl, fun i hi other hother => ?_⟩
    exact hread (Nat.lt_trans hi hj) hother
  · intro hundisturbed k name bytes hname hreads
    obtain ⟨hlength, hbefore⟩ := hundisturbed k name bytes hname hreads
    have hk : k < m := by
      by_contra hle
      have hm := Nat.le_of_not_lt hle
      obtain ⟨other, hother⟩ : ∃ other, names[m]? = some other := by
        have hlt : k < names.length := (List.getElem?_eq_some_iff.mp hname).1
        exact ⟨names[m], List.getElem?_eq_getElem (Nat.lt_of_le_of_lt hm hlt)⟩
      have hnone := hend other hother
      rw [Nat.zero_add] at hnone
      rcases Nat.lt_or_eq_of_le hm with hlt | rfl
      · exact hnone (hbefore m hlt other hother)
      · obtain rfl := Option.some.inj (hname.symm.trans hother)
        exact hnone ⟨bytes, hreads⟩
    obtain ⟨call, hcall, hsets⟩ := hthrough.sets k hk name hname
    rw [Nat.zero_add] at hsets
    rw [← (Sets.eq_iff hsets hreads).mpr hlength]
    exact hcall

theorem aclCopyFd_lists {names : List (List UInt8)} (h : Lists sys names) :
    aclCopyFd sys ignoreEperm = copyNames sys ignoreEperm 0 names := by
  obtain ⟨hnames, size, tail, hpos, hsize, htail, hlist, hlen⟩ := h
  obtain ⟨size, rfl⟩ : ∃ n, size = n + 1 := ⟨size - 1, by omega⟩
  have hfill : fill sys.list (size + 1) = .ok (encode names ++ tail) := by
    rw [hlist, fill, if_neg (Nat.succ_ne_zero size), if_neg (Nat.not_lt_of_le hlen)]
  rw [aclCopyFd, hsize]
  simp only [hfill]
  rw [CStrVIterator.collect_encode hnames htail (Nat.lt_succ_self _)]

/-- When `acl_copy_fd` returns `Ok` with the name list obtained, every attribute that can
be read has been set as it was read just if no attribute before it is missing and its
length has not changed. -/
theorem aclCopyFd_complete_iff {names : List (List UInt8)} (hlists : Lists sys names)
    (hok : (aclCopyFd sys ignoreEperm).1 = .ok ()) :
    Complete sys names (aclCopyFd sys ignoreEperm).2 ↔ Undisturbed sys names := by
  rw [aclCopyFd_lists hlists] at hok ⊢
  exact copyNames_complete_iff hok

/-! ## A list of two -/

namespace Sample

/-- Two attributes; the second is there. -/
def answers (first : Except Errno (List UInt8)) : Answers where
  listSize := .ok 4
  list := .ok [97, 0, 98, 0]
  size k _ := if k = 0 then first.map List.length else .ok 1
  value k _ := if k = 0 then first else .ok [2]
  set _ _ _ := none
  heap _ _ := 0

theorem answers_lists (first : Except Errno (List UInt8)) :
    Lists (answers first) [[97], [98]] := by
  refine ⟨?_, 4, [], by decide, rfl, by decide, rfl, by decide⟩
  intro name hname
  rcases List.mem_cons.mp hname with rfl | hname
  · decide
  · obtain rfl := List.mem_singleton.mp hname
    decide

theorem second_reads (first : Except Errno (List UInt8)) : Reads (answers first) 1 [98] [2] :=
  ⟨1, rfl, rfl⟩

/-- The first attribute is missing: the second is not copied. -/
theorem missing_lost :
    Lists (answers (.error .enodata)) [[97], [98]] ∧
      (aclCopyFd (answers (.error .enodata)) true).1 = .ok () ∧
      ¬ Complete (answers (.error .enodata)) [[97], [98]]
        (aclCopyFd (answers (.error .enodata)) true).2 := by
  refine ⟨answers_lists _, by decide, fun hcomplete => ?_⟩
  have hmem := hcomplete 1 [98] [2] rfl (second_reads _)
  exact absurd hmem (by decide)

theorem present_undisturbed : Undisturbed (answers (.ok [1])) [[97], [98]] := by
  rintro k name bytes hname ⟨numBytes, hsize, hvalue⟩
  match k with
  | 0 =>
      cases hsize
      cases hvalue
      exact ⟨rfl, fun j hj => absurd hj (Nat.not_lt_zero j)⟩
  | 1 =>
      cases hsize
      cases hvalue
      refine ⟨rfl, fun j hj other _ => ?_⟩
      obtain rfl : j = 0 := by omega
      exact ⟨[1], 1, rfl, rfl⟩
  | k + 2 => cases hname

theorem present_complete :
    Complete (answers (.ok [1])) [[97], [98]] (aclCopyFd (answers (.ok [1])) true).2 :=
  (aclCopyFd_complete_iff (answers_lists _) (by decide)).mpr present_undisturbed

end Sample

end Acl
end DracutInstall

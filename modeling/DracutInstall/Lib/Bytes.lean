/-
Fixed-width integers in either byte order, and readers of byte strings.

`Reads r bs a` says that the reader `r`, started at the front of `bs` followed
by anything, consumes exactly `bs` and returns `a`.  The rules for `pure`,
`bind` and the repetition build such facts for a record from the facts for its
fields, so that a layout theorem is read off the fields in order.
-/
import Mathlib.Algebra.Group.Nat.Defs
import DracutInstall.Lib.Outcome

namespace ByteCodec

open Rust

/-- The bytes of an ASCII literal. -/
def ascii (s : String) : List UInt8 := s.toList.map fun c => UInt8.ofNat c.toNat

inductive ByteOrder where
  | little
  | big
  deriving DecidableEq, Repr

/-! ## Integers as bytes -/

def toLE : Nat → Nat → List UInt8
  | 0, _ => []
  | w + 1, n => UInt8.ofNat n :: toLE w (n / 256)

def ofLE : List UInt8 → Nat
  | [] => 0
  | b :: bs => b.toNat + 256 * ofLE bs

@[simp] theorem toLE_length (w n : Nat) : (toLE w n).length = w := by
  induction w generalizing n with
  | zero => rfl
  | succ w ih => simp [toLE, ih]

theorem ofLE_toLE {w n : Nat} (h : n < 256 ^ w) : ofLE (toLE w n) = n := by
  induction w generalizing n with
  | zero =>
      have hn : n = 0 := by simpa using h
      rw [hn]
      rfl
  | succ w ih =>
      have hdiv : n / 256 < 256 ^ w := by
        rw [Nat.div_lt_iff_lt_mul (by omega)]
        simpa [Nat.pow_succ] using h
      rw [toLE, ofLE, ih hdiv, UInt8.toNat_ofNat']
      omega

/-- The `w` bytes of `n` in the given order. -/
def toBytes : ByteOrder → Nat → Nat → List UInt8
  | .little, w, n => toLE w n
  | .big, w, n => (toLE w n).reverse

def ofBytes : ByteOrder → List UInt8 → Nat
  | .little, bs => ofLE bs
  | .big, bs => ofLE bs.reverse

@[simp] theorem toBytes_length (o : ByteOrder) (w n : Nat) : (toBytes o w n).length = w := by
  cases o <;> simp [toBytes]

theorem ofBytes_toBytes (o : ByteOrder) {w n : Nat} (h : n < 256 ^ w) :
    ofBytes o (toBytes o w n) = n := by
  cases o with
  | little => exact ofLE_toLE h
  | big =>
      rw [toBytes, ofBytes, List.reverse_reverse]
      exact ofLE_toLE h

/-- `u32::swap_bytes`. -/
def swapBytes (x : UInt32) : UInt32 := UInt32.ofNat (ofBytes .big (toBytes .little 4 x.toNat))

def ByteOrder.swap : ByteOrder → ByteOrder
  | .little => .big
  | .big => .little

theorem ofLE_lt (bs : List UInt8) : ofLE bs < 256 ^ bs.length := by
  induction bs with
  | nil => simp [ofLE]
  | cons b bs ih =>
      have hb : b.toNat < 256 := b.toNat_lt
      rw [ofLE, List.length_cons, Nat.pow_succ]
      omega

theorem toLE_ofLE (bs : List UInt8) : toLE bs.length (ofLE bs) = bs := by
  induction bs with
  | nil => rfl
  | cons b bs ih =>
      have hb : b.toNat < 256 := b.toNat_lt
      have hdiv : (b.toNat + 256 * ofLE bs) / 256 = ofLE bs := by omega
      have hhead : UInt8.ofNat (b.toNat + 256 * ofLE bs) = b := by
        apply UInt8.toNat_inj.mp
        rw [UInt8.toNat_ofNat']
        omega
      rw [List.length_cons, ofLE, toLE, hdiv, hhead, ih]

/-- Four bytes read in the wrong order are the swapped value. -/
theorem swapBytes_ofBytes (o : ByteOrder) {bs : List UInt8} (h : bs.length = 4) :
    swapBytes (UInt32.ofNat (ofBytes o bs)) = UInt32.ofNat (ofBytes o.swap bs) := by
  have hlt := ofLE_lt bs
  have hlt' := ofLE_lt bs.reverse
  rw [List.length_reverse] at hlt'
  rw [h] at hlt hlt'
  cases o with
  | little =>
      have hle := toLE_ofLE bs
      rw [h] at hle
      simp only [swapBytes, ofBytes, toBytes, ByteOrder.swap, UInt32.toNat_ofNat']
      rw [Nat.mod_eq_of_lt (by simpa using hlt), hle]
  | big =>
      have hle := toLE_ofLE bs.reverse
      rw [List.length_reverse, h] at hle
      simp only [swapBytes, ofBytes, toBytes, ByteOrder.swap, UInt32.toNat_ofNat']
      rw [Nat.mod_eq_of_lt (by simpa using hlt'), hle, List.reverse_reverse]

/-! ## Readers -/

/-- A reader of a byte source: the state is what is left of the source. -/
abbrev Reader (ε α : Type) := StateT (List UInt8) (Outcome ε) α

variable {ε α β : Type}

/-- `Read::read_exact` into a buffer of `n` bytes; `eof` is the error of a
source that ends too early. -/
def readExact (eof : ε) (n : Nat) : Reader ε (List UInt8) := fun bs =>
  if n ≤ bs.length then .ok (bs.take n, bs.drop n) else .err eof

def readU16 (eof : ε) (o : ByteOrder) : Reader ε UInt16 := do
  let bs ← readExact eof 2
  pure (UInt16.ofNat (ofBytes o bs))

def readU32 (eof : ε) (o : ByteOrder) : Reader ε UInt32 := do
  let bs ← readExact eof 4
  pure (UInt32.ofNat (ofBytes o bs))

def readU64 (eof : ε) (o : ByteOrder) : Reader ε UInt64 := do
  let bs ← readExact eof 8
  pure (UInt64.ofNat (ofBytes o bs))

/-- `Err(e)` as the whole rest of a reader. -/
def fail (e : ε) : Reader ε α := fun _ => .err e

/-- A value that is there, or the error `e`. -/
def orFail (x : Option α) (e : ε) : Reader ε α :=
  match x with
  | some a => pure a
  | none => fail e

def ensure (p : Prop) [Decidable p] (e : ε) : Reader ε Unit :=
  if p then pure () else fail e

/-- `for _ in 0..n { out.push(r(io)?) }`. -/
def readMany (r : Reader ε α) : Nat → Reader ε (List α)
  | 0 => pure []
  | n + 1 => do
      let a ← r
      let as ← readMany r n
      pure (a :: as)

/-- The reader consumes exactly `bs` and returns `a`, whatever follows. -/
def Reads (r : Reader ε α) (bs : List UInt8) (a : α) : Prop :=
  ∀ rest, r.run (bs ++ rest) = .ok (a, rest)

theorem Reads.pure (a : α) : Reads (pure a : Reader ε α) [] a := fun _ => rfl

theorem Reads.bind {r : Reader ε α} {f : α → Reader ε β} {bs cs : List UInt8} {a : α} {b : β}
    (hr : Reads r bs a) (hf : Reads (f a) cs b) : Reads (r >>= f) (bs ++ cs) b := by
  intro rest
  rw [StateT.run_bind, List.append_assoc, hr]
  exact hf rest

/-- A step that reads nothing. -/
theorem Reads.step {r : Reader ε α} {f : α → Reader ε β} {bs : List UInt8} {a : α} {b : β}
    (hr : Reads r [] a) (hf : Reads (f a) bs b) : Reads (r >>= f) bs b := hr.bind hf

theorem Reads.orFail {x : Option α} {a : α} (e : ε) (h : x = some a) :
    Reads (orFail x e) [] a := by
  rw [h]
  exact Reads.pure a

theorem Reads.ensure {p : Prop} [Decidable p] (e : ε) (h : p) : Reads (ensure p e) [] () := by
  rw [ByteCodec.ensure, if_pos h]
  exact Reads.pure ()

theorem Reads.map {r : Reader ε α} {bs : List UInt8} {a : α} (f : α → β) (hr : Reads r bs a) :
    Reads (do let x ← r; Pure.pure (f x)) bs (f a) := by
  intro rest
  rw [StateT.run_bind, hr]
  rfl

/-- The last field of a record: what is returned is the record `b`. -/
theorem Reads.last {r : Reader ε α} {bs : List UInt8} {a : α} {f : α → β} {b : β}
    (hr : Reads r bs a) (hf : f a = b) : Reads (do let x ← r; Pure.pure (f x)) bs b :=
  hf ▸ hr.map f

theorem Reads.exact (eof : ε) (bs : List UInt8) : Reads (readExact eof bs.length) bs bs := by
  intro rest
  show readExact eof bs.length (bs ++ rest) = _
  simp [readExact]

theorem Reads.u16 (eof : ε) (o : ByteOrder) (x : UInt16) :
    Reads (readU16 eof o) (toBytes o 2 x.toNat) x := by
  have hx : x.toNat < 256 ^ 2 := x.toNat_lt
  have h := (Reads.exact eof (toBytes o 2 x.toNat)).map fun bs => UInt16.ofNat (ofBytes o bs)
  rwa [toBytes_length, ofBytes_toBytes o hx, UInt16.ofNat_toNat] at h

theorem Reads.u32 (eof : ε) (o : ByteOrder) (x : UInt32) :
    Reads (readU32 eof o) (toBytes o 4 x.toNat) x := by
  have hx : x.toNat < 256 ^ 4 := x.toNat_lt
  have h := (Reads.exact eof (toBytes o 4 x.toNat)).map fun bs => UInt32.ofNat (ofBytes o bs)
  rwa [toBytes_length, ofBytes_toBytes o hx, UInt32.ofNat_toNat] at h

theorem Reads.u64 (eof : ε) (o : ByteOrder) (x : UInt64) :
    Reads (readU64 eof o) (toBytes o 8 x.toNat) x := by
  have hx : x.toNat < 256 ^ 8 := x.toNat_lt
  have h := (Reads.exact eof (toBytes o 8 x.toNat)).map fun bs => UInt64.ofNat (ofBytes o bs)
  rwa [toBytes_length, ofBytes_toBytes o hx, UInt64.ofNat_toNat] at h

theorem Reads.manyMap {γ : Type} {r : Reader ε α} (encode : γ → List UInt8) (decode : γ → α)
    {l : List γ} (h : ∀ c ∈ l, Reads r (encode c) (decode c)) :
    Reads (readMany r l.length) (l.flatMap encode) (l.map decode) := by
  induction l with
  | nil => exact Reads.pure []
  | cons c l ih =>
      have hc := h c List.mem_cons_self
      have hl := ih fun d hd => h d (List.mem_cons_of_mem c hd)
      rw [List.length_cons, List.flatMap_cons]
      exact hc.bind (hl.map fun xs => decode c :: xs)

theorem Reads.many {r : Reader ε α} (encode : α → List UInt8) {as : List α}
    (h : ∀ a ∈ as, Reads r (encode a) a) :
    Reads (readMany r as.length) (as.flatMap encode) as := by
  have hmany := Reads.manyMap encode id h
  rwa [List.map_id] at hmany

/-! ## What a run has read

A run that ends in a value tells the bytes it took. -/

theorem toBytes_ofBytes (o : ByteOrder) (bs : List UInt8) :
    toBytes o bs.length (ofBytes o bs) = bs := by
  cases o with
  | little => exact toLE_ofLE bs
  | big =>
      have h := toLE_ofLE bs.reverse
      rw [List.length_reverse] at h
      rw [toBytes, ofBytes, h, List.reverse_reverse]

theorem ofBytes_lt (o : ByteOrder) (bs : List UInt8) : ofBytes o bs < 256 ^ bs.length := by
  cases o with
  | little => exact ofLE_lt bs
  | big =>
      have h := ofLE_lt bs.reverse
      rw [List.length_reverse] at h
      exact h

theorem run_bind_eq_ok {r : Reader ε α} {f : α → Reader ε β} {bs rest : List UInt8} {b : β} :
    (r >>= f).run bs = .ok (b, rest) ↔
      ∃ a mid, r.run bs = .ok (a, mid) ∧ (f a).run mid = .ok (b, rest) := by
  rw [StateT.run_bind, Outcome.bind_eq_ok]
  constructor
  · rintro ⟨⟨a, mid⟩, hr, hf⟩
    exact ⟨a, mid, hr, hf⟩
  · rintro ⟨a, mid, hr, hf⟩
    exact ⟨(a, mid), hr, hf⟩

theorem run_pure_eq_ok {a b : α} {bs rest : List UInt8}
    (h : (pure a : Reader ε α).run bs = .ok (b, rest)) : b = a ∧ rest = bs := by
  cases h
  exact ⟨rfl, rfl⟩

theorem run_exact_eq_ok {eof : ε} {n : Nat} {bs chunk rest : List UInt8}
    (h : (readExact eof n).run bs = .ok (chunk, rest)) : chunk.length = n ∧ bs = chunk ++ rest := by
  change (if n ≤ bs.length then _ else _) = _ at h
  split at h
  · rename_i hlen
    cases h
    exact ⟨List.length_take_of_le hlen, (List.take_append_drop n bs).symm⟩
  · cases h

theorem run_u32_eq_ok {eof : ε} {o : ByteOrder} {bs rest : List UInt8} {x : UInt32}
    (h : (readU32 eof o).run bs = .ok (x, rest)) : bs = toBytes o 4 x.toNat ++ rest := by
  obtain ⟨chunk, mid, hchunk, hlast⟩ := run_bind_eq_ok.mp h
  obtain ⟨rfl, rfl⟩ := run_pure_eq_ok hlast
  obtain ⟨hlen, rfl⟩ := run_exact_eq_ok hchunk
  have hlt := ofBytes_lt o chunk
  have hback := toBytes_ofBytes o chunk
  rw [hlen] at hlt hback
  have hfits : ofBytes o chunk < 2 ^ 32 := hlt
  rw [UInt32.toNat_ofNat', Nat.mod_eq_of_lt hfits, hback]

theorem run_u64_eq_ok {eof : ε} {o : ByteOrder} {bs rest : List UInt8} {x : UInt64}
    (h : (readU64 eof o).run bs = .ok (x, rest)) : bs = toBytes o 8 x.toNat ++ rest := by
  obtain ⟨chunk, mid, hchunk, hlast⟩ := run_bind_eq_ok.mp h
  obtain ⟨rfl, rfl⟩ := run_pure_eq_ok hlast
  obtain ⟨hlen, rfl⟩ := run_exact_eq_ok hchunk
  have hlt := ofBytes_lt o chunk
  have hback := toBytes_ofBytes o chunk
  rw [hlen] at hlt hback
  have hfits : ofBytes o chunk < 2 ^ 64 := hlt
  rw [UInt64.toNat_ofNat', Nat.mod_eq_of_lt hfits, hback]

theorem run_orFail_eq_ok {x : Option α} {e : ε} {a : α} {bs rest : List UInt8}
    (h : (orFail x e).run bs = .ok (a, rest)) : x = some a ∧ rest = bs := by
  cases x with
  | none => cases h
  | some b =>
      obtain ⟨rfl, rfl⟩ := run_pure_eq_ok h
      exact ⟨rfl, rfl⟩

/-- The records of a table lie behind one another, each as long as a record is. -/
theorem run_many_eq_ok {r : Reader ε α} {z : Nat}
    (hsize : ∀ bs a rest, r.run bs = .ok (a, rest) → rest = bs.drop z) {n : Nat}
    {bs rest : List UInt8} {as : List α} (h : (readMany r n).run bs = .ok (as, rest)) :
    as.length = n ∧ ∀ k (hk : k < as.length),
      ∃ after, r.run (bs.drop (k * z)) = .ok (as[k], after) := by
  induction n generalizing bs as rest with
  | zero =>
      obtain ⟨rfl, _⟩ := run_pure_eq_ok h
      exact ⟨rfl, fun k hk => absurd hk (Nat.not_lt_zero k)⟩
  | succ n ih =>
      obtain ⟨a, mid, hr, hrest⟩ := run_bind_eq_ok.mp h
      obtain ⟨as', mid', hmany, hlast⟩ := run_bind_eq_ok.mp hrest
      obtain ⟨rfl, _⟩ := run_pure_eq_ok hlast
      obtain ⟨hlen, hget⟩ := ih hmany
      refine ⟨congrArg Nat.succ hlen, fun k hk => ?_⟩
      cases k with
      | zero =>
          rw [Nat.zero_mul]
          exact ⟨mid, hr⟩
      | succ k =>
          obtain ⟨after, hafter⟩ := hget k (Nat.lt_of_succ_lt_succ hk)
          rw [hsize bs a mid hr, List.drop_drop] at hafter
          rw [Nat.succ_mul, Nat.add_comm]
          exact ⟨after, hafter⟩

/-! ## Readers that return

A reader that is built from those above comes back with a value or an error on
every byte string. -/

def Returns (r : Reader ε α) : Prop := ∀ bs, r.run bs ≠ .panic

theorem Returns.pure (a : α) : Returns (pure a : Reader ε α) := fun _ h => nomatch h

theorem Returns.fail (e : ε) : Returns (fail e : Reader ε α) := fun _ h => nomatch h

theorem Returns.bind {r : Reader ε α} {f : α → Reader ε β} (hr : Returns r)
    (hf : ∀ a, Returns (f a)) : Returns (r >>= f) := by
  intro bs h
  rw [StateT.run_bind, Outcome.bind_eq_panic] at h
  rcases h with h | ⟨⟨a, rest⟩, _, h⟩
  · exact hr bs h
  · exact hf a rest h

theorem Returns.exact (eof : ε) (n : Nat) : Returns (readExact eof n) := by
  intro bs h
  change (if n ≤ bs.length then _ else _) = _ at h
  split at h <;> cases h

theorem Returns.u16 (eof : ε) (o : ByteOrder) : Returns (readU16 eof o) :=
  (Returns.exact eof 2).bind fun _ => .pure _

theorem Returns.u32 (eof : ε) (o : ByteOrder) : Returns (readU32 eof o) :=
  (Returns.exact eof 4).bind fun _ => .pure _

theorem Returns.u64 (eof : ε) (o : ByteOrder) : Returns (readU64 eof o) :=
  (Returns.exact eof 8).bind fun _ => .pure _

theorem Returns.orFail (x : Option α) (e : ε) : Returns (orFail x e) := by
  cases x with
  | none => exact .fail e
  | some a => exact .pure a

theorem Returns.ensure (p : Prop) [Decidable p] (e : ε) : Returns (ensure p e) := by
  rw [ByteCodec.ensure]
  split
  · exact .pure ()
  · exact .fail e

theorem Returns.many {r : Reader ε α} (h : Returns r) (n : Nat) : Returns (readMany r n) := by
  induction n with
  | zero => exact .pure []
  | succ n ih => exact h.bind fun a => ih.bind fun as => .pure (a :: as)

/-! ## Placement

A chunk lies at an offset of a byte string when the bytes there are the chunk's
bytes.  Chunks may overlap and may be placed in any order. -/

def At (bytes : List UInt8) (off : Nat) (chunk : List UInt8) : Prop :=
  ∃ rest, bytes.drop off = chunk ++ rest ∧ off ≤ bytes.length

theorem At.length_le {bytes chunk : List UInt8} {off : Nat} (h : At bytes off chunk) :
    off + chunk.length ≤ bytes.length := by
  obtain ⟨rest, hdrop, hoff⟩ := h
  have hlen := congrArg List.length hdrop
  rw [List.length_drop, List.length_append] at hlen
  omega

theorem At.take {bytes chunk : List UInt8} {off : Nat} (h : At bytes off chunk) :
    (bytes.drop off).take chunk.length = chunk := by
  obtain ⟨rest, hdrop, _⟩ := h
  rw [hdrop, List.take_left]

theorem at_iff {bytes chunk : List UInt8} {off : Nat} :
    At bytes off chunk ↔ (bytes.drop off).take chunk.length = chunk ∧ off ≤ bytes.length := by
  constructor
  · intro h
    exact ⟨h.take, by have hle := h.length_le; omega⟩
  · rintro ⟨htake, hoff⟩
    have hsplit := (List.take_append_drop chunk.length (bytes.drop off)).symm
    rw [htake] at hsplit
    exact ⟨_, hsplit, hoff⟩

instance (bytes : List UInt8) (off : Nat) (chunk : List UInt8) : Decidable (At bytes off chunk) :=
  decidable_of_iff' _ at_iff

theorem At.readExact {bytes chunk : List UInt8} {off : Nat} (h : At bytes off chunk) (eof : ε) :
    (readExact eof chunk.length).run (bytes.drop off) =
      .ok (chunk, (bytes.drop off).drop chunk.length) := by
  obtain ⟨rest, hdrop, _⟩ := h
  rw [hdrop, List.drop_left]
  exact Reads.exact eof chunk rest

/-! ## Strings in a table -/

/-- The table holds the string `s` at `off`: `s` has no NUL, and after it comes a
NUL or the end of the table. -/
def StringAt (table : List UInt8) (off : Nat) (s : List UInt8) : Prop :=
  0 ∉ s ∧ off ≤ table.length ∧ ∃ rest, table.drop off = s ++ rest ∧ rest.head?.getD 0 = 0

theorem StringAt.takeWhile {table s : List UInt8} {off : Nat} (h : StringAt table off s) :
    (table.drop off).takeWhile (· ≠ 0) = s := by
  obtain ⟨hs, _, rest, hdrop, hrest⟩ := h
  have hall : ∀ b ∈ s, (decide (b ≠ 0)) = true := by
    intro b hb
    have hne : b ≠ 0 := fun e => hs (e ▸ hb)
    simpa using hne
  rw [hdrop, List.takeWhile_append_of_pos hall]
  cases rest with
  | nil => simp
  | cons b rest =>
      have hb : b = 0 := by simpa using hrest
      simp [hb]

theorem stringAt_iff {table s : List UInt8} {off : Nat} :
    StringAt table off s ↔
      off ≤ table.length ∧ (table.drop off).takeWhile (· ≠ 0) = s := by
  constructor
  · intro h
    exact ⟨h.2.1, h.takeWhile⟩
  · rintro ⟨hoff, rfl⟩
    refine ⟨?_, hoff, (table.drop off).dropWhile (· ≠ 0), List.takeWhile_append_dropWhile.symm, ?_⟩
    · intro h
      simpa using List.all_eq_true.mp List.all_takeWhile 0 h
    · cases h : (table.drop off).dropWhile (· ≠ 0) with
      | nil => rfl
      | cons b rest =>
          have hb := List.head?_dropWhile_not (fun b : UInt8 => decide (b ≠ 0)) (table.drop off)
          rw [h] at hb
          simpa using hb

instance (table : List UInt8) (off : Nat) (s : List UInt8) : Decidable (StringAt table off s) :=
  decidable_of_iff' _ stringAt_iff

end ByteCodec

import Mathlib.Data.Nat.Basic
import Mathlib.Logic.Function.Basic
import Mathlib.Tactic.Linarith

/-!
# Bytes in memory

Memory is a byte at each 64-bit address, and a word of `n` bytes lies with its low byte first.
A range of addresses may go round the end of the address space, so whether an address is in
it is asked of the distance from where it begins.

A word that was stored is loaded again, and every address out of the range that is written keeps its
byte; a load depends on its range alone. Proofs about memory need little else. `memcpy` goes forward
byte by byte, so `memcpy_at` reads the bytes as they are when they are reached; only for ranges that
lie apart is it a copy of what was there (`memcpy_apart`). Alignment and access rights are not
modelled.
-/

namespace Skylight.Bytes

/-- Addresses. -/
abbrev Addr := BitVec 64

/-- A byte at each address. -/
abbrev Memory := Addr → BitVec 8

/-- The address `x` is one of the `n` from `a` on. -/
def InRange (a : Addr) (n : Nat) (x : Addr) : Prop := (x - a).toNat < n

instance (a : Addr) (n : Nat) (x : Addr) : Decidable (InRange a n x) :=
  inferInstanceAs (Decidable (_ < _))

/-- The word of `n` bytes at `a`. -/
def loadBytes (m : Memory) : Nat → Addr → Nat
  | 0, _ => 0
  | n + 1, a => (m a).toNat + 256 * loadBytes m n (a + 1)

/-- Memory with a word of `n` bytes written at `a`. -/
def storeBytes (m : Memory) (n : Nat) (a : Addr) (v : Nat) : Memory := fun x =>
  if InRange a n x then BitVec.ofNat 8 (v / 256 ^ (x - a).toNat) else m x

/-- The word of eight bytes at `a`. -/
def load (m : Memory) (a : Addr) : BitVec 64 := BitVec.ofNat 64 (loadBytes m 8 a)

/-- Memory with a word of eight bytes written at `a`. -/
def store (m : Memory) (a : Addr) (v : BitVec 64) : Memory := storeBytes m 8 a v.toNat

/-- `memset` -/
def memset (m : Memory) (a : Addr) (c : BitVec 8) (n : Nat) : Memory := fun x =>
  if InRange a n x then c else m x

/-- `memcpy`: one byte after the other from the first on, so that a byte that was written can be
read again. -/
def memcpy (m : Memory) (to' source : Addr) : Nat → Memory
  | 0 => m
  | n + 1 =>
    let m := memcpy m to' source n
    Function.update m (to' + BitVec.ofNat 64 n) (m (source + BitVec.ofNat 64 n))

section
variable {m m' : Memory} {a b x : Addr} {n k v : Nat} {c : BitVec 8}

/-- A range that does not go round is an interval. -/
theorem inRange_iff (h : a.toNat + n ≤ 2 ^ 64) :
    InRange a n x ↔ a.toNat ≤ x.toNat ∧ x.toNat < a.toNat + n := by
  have := x.isLt
  rw [InRange, BitVec.toNat_sub]
  omega

/-- An offset is the distance from where it is counted. -/
theorem add_sub_self (a d : Addr) : a + d - a = d := by
  rw [BitVec.add_comm, BitVec.add_sub_cancel]

/-- The bytes of a range, by their offsets. -/
theorem inRange_add {i : Nat} (h : i < n) :
    InRange a n (a + BitVec.ofNat 64 i) := by
  rw [InRange, add_sub_self, BitVec.toNat_ofNat]
  exact Nat.lt_of_le_of_lt (Nat.mod_le _ _) h

/-- A range inside another. -/
theorem InRange.within {i : Nat} (h : InRange (a + BitVec.ofNat 64 i) n x) (le : i + n ≤ k)
    (small : k ≤ 2 ^ 64) : InRange a k x := by
  rw [InRange, BitVec.toNat_sub, BitVec.toNat_add, BitVec.toNat_ofNat] at h
  rw [InRange, BitVec.toNat_sub]
  have := x.isLt
  have := a.isLt
  omega

/-- A range behind another. -/
theorem InRange.not_behind {i : Nat} (h : InRange a i x) (small : i + n ≤ 2 ^ 64) :
    ¬ InRange (a + BitVec.ofNat 64 i) n x := by
  rw [InRange, BitVec.toNat_sub] at h
  rw [InRange, BitVec.toNat_sub, BitVec.toNat_add, BitVec.toNat_ofNat]
  have := x.isLt
  have := a.isLt
  omega

/-- A quadword stored leaves the bytes out of its range. -/
theorem store_of_not {w : BitVec 64} (h : ¬ InRange a 8 x) : store m a w x = m x := if_neg h

/-- `memset` leaves the bytes out of its range. -/
theorem memset_of_not (h : ¬ InRange a n x) : memset m a c n x = m x := if_neg h

@[simp] theorem memcpy_zero : memcpy m a b 0 = m := rfl

/-- A byte that no round of the copy writes stays. -/
theorem memcpy_of_ne : ∀ {n : Nat}, (∀ i < n, x ≠ a + BitVec.ofNat 64 i) →
    memcpy m a b n x = m x := by
  intro n
  induction n with
  | zero =>
    intro _
    rfl
  | succ n ih =>
    intro ne
    rw [memcpy, Function.update_of_ne (ne n (Nat.lt_succ_self n))]
    exact ih fun i lt => ne i (Nat.lt_succ_of_lt lt)

/-- `memcpy` leaves the bytes out of the range it writes, whatever it reads. -/
theorem memcpy_of_not (h : ¬ InRange a n x) : memcpy m a b n x = m x :=
  memcpy_of_ne fun _ lt eq => h (eq ▸ inRange_add lt)

/-- A copy goes on where a shorter one has ended. -/
theorem memcpy_add : memcpy m a b (n + k) =
    memcpy (memcpy m a b n) (a + BitVec.ofNat 64 n) (b + BitVec.ofNat 64 n) k := by
  induction k with
  | zero => rfl
  | succ k ih =>
    show Function.update (memcpy m a b (n + k)) (a + BitVec.ofNat 64 (n + k))
      (memcpy m a b (n + k) (b + BitVec.ofNat 64 (n + k))) = _
    rw [memcpy, ← ih, BitVec.ofNat_add, BitVec.add_assoc, BitVec.add_assoc]

/-- A byte arrives as it was when none of those before it was written over it. -/
theorem memcpy_at (small : n ≤ 2 ^ 64) {i : Nat} (lt : i < n)
    (behind : ∀ j < i, b + BitVec.ofNat 64 i ≠ a + BitVec.ofNat 64 j) :
    memcpy m a b n (a + BitVec.ofNat 64 i) = m (b + BitVec.ofNat 64 i) := by
  obtain ⟨k, rfl⟩ := Nat.exists_eq_add_of_lt lt
  -- the byte is written once, and what is written before it leaves its source
  rw [Nat.add_right_comm, memcpy_add, memcpy_of_ne, memcpy, Function.update_self,
    memcpy_of_ne behind]
  intro j less eq
  have apart := congrArg BitVec.toNat eq
  simp only [BitVec.toNat_add, BitVec.toNat_ofNat] at apart
  have := a.isLt
  omega

/-- A copy to a range that the source does not meet. -/
theorem memcpy_apart (small : n ≤ 2 ^ 64) (apart : ∀ x, InRange a n x → ¬ InRange b n x) :
    memcpy m a b n = fun x => if InRange a n x then m (b + (x - a)) else m x := by
  funext x
  split
  next near =>
    have place : x = a + BitVec.ofNat 64 (x - a).toNat := by
      rw [BitVec.ofNat_toNat, BitVec.setWidth_eq, BitVec.add_comm, BitVec.sub_add_cancel]
    have source : b + (x - a) = b + BitVec.ofNat 64 (x - a).toNat := by
      rw [BitVec.ofNat_toNat, BitVec.setWidth_eq]
    rw [source]
    conv_lhs => rw [place]
    apply memcpy_at small near
    intro j lt same
    exact apart _ (same ▸ inRange_add (lt.trans near)) (inRange_add near)
  next off => exact memcpy_of_not off

/-- A load reads nothing but its range. -/
theorem loadBytes_congr : ∀ {n : Nat} {a : Addr},
    (∀ i < n, m' (a + BitVec.ofNat 64 i) = m (a + BitVec.ofNat 64 i)) →
      loadBytes m' n a = loadBytes m n a := by
  intro n
  induction n with
  | zero =>
    intro a _
    rfl
  | succ n ih =>
    intro a same
    have first := same 0 (Nat.succ_pos n)
    rw [show a + BitVec.ofNat 64 0 = a from BitVec.add_zero a] at first
    rw [loadBytes, loadBytes, first, ih]
    intro i lt
    have later := same (i + 1) (Nat.succ_lt_succ lt)
    rw [Nat.add_comm i 1, BitVec.ofNat_add, ← BitVec.add_assoc] at later
    exact later

/-- A quadword depends on its eight bytes only. -/
theorem load_congr (h : ∀ x, InRange a 8 x → m' x = m x) : load m' a = load m a := by
  rw [load, load, loadBytes_congr fun i lt => h _ (inRange_add lt)]

/-- The bytes of a number make it up again. -/
theorem loadBytes_of_digits : ∀ {n : Nat} {a : Addr} {v : Nat},
    (∀ i < n, m (a + BitVec.ofNat 64 i) = BitVec.ofNat 8 (v / 256 ^ i)) →
      loadBytes m n a = v % 256 ^ n := by
  intro n
  induction n with
  | zero =>
    intro a v _
    rw [loadBytes, Nat.pow_zero, Nat.mod_one]
  | succ n ih =>
    intro a v digits
    have first := digits 0 (Nat.succ_pos n)
    rw [show a + BitVec.ofNat 64 0 = a from BitVec.add_zero a, Nat.pow_zero, Nat.div_one] at first
    have rest : loadBytes m n (a + 1) = v / 256 % 256 ^ n := by
      apply ih
      intro i lt
      have later := digits (i + 1) (Nat.succ_lt_succ lt)
      rw [Nat.add_comm i 1, BitVec.ofNat_add, ← BitVec.add_assoc, Nat.pow_add, Nat.pow_one,
        ← Nat.div_div_eq_div_mul] at later
      exact later
    rw [loadBytes, first, rest, BitVec.toNat_ofNat]
    show v % 256 + 256 * (v / 256 % 256 ^ n) = v % 256 ^ (n + 1)
    rw [Nat.pow_succ', Nat.mod_mul]

/-- A word that was stored is read back, as far as its bytes hold it. -/
theorem loadBytes_storeBytes (small : n ≤ 2 ^ 64) :
    loadBytes (storeBytes m n a v) n a = v % 256 ^ n := by
  apply loadBytes_of_digits
  intro i lt
  rw [storeBytes, if_pos (inRange_add lt), add_sub_self, BitVec.toNat_ofNat,
    Nat.mod_eq_of_lt (Nat.lt_of_lt_of_le lt small)]

/-- What was stored is loaded. -/
@[simp] theorem load_store (w : BitVec 64) : load (store m a w) a = w := by
  rw [load, store, loadBytes_storeBytes (by decide)]
  apply BitVec.eq_of_toNat_eq
  rw [BitVec.toNat_ofNat]
  have := w.isLt
  omega

/-- A store far enough away is not seen. -/
theorem load_store_of_apart {w : BitVec 64} (h : 8 ≤ (a - b).toNat) (h' : 8 ≤ (b - a).toNat) :
    load (store m a w) b = load m b := by
  apply load_congr
  intro x near
  apply store_of_not
  rw [InRange, BitVec.toNat_sub] at near
  rw [InRange, BitVec.toNat_sub]
  rw [BitVec.toNat_sub] at h h'
  have := x.isLt
  have := a.isLt
  have := b.isLt
  omega

end

end Skylight.Bytes

import Skylight.Lib.Bytes

/-!
# Windows of memory

A window of `size` bytes lies at `base k` for each key `k`, and what is seen in it is a byte for
each offset. Windows that lie apart are stores of their own: what is written through one is seen
through no other.

`view_store` says what a store shows in its own window, `view_store_of_ne` that other windows stay,
and `store_beside` that memory out of all of them does. The windows may go round the end of the
address space, but none is longer than it.
-/

namespace Skylight.Windows

open Bytes

variable {K : Type*} {base : K → Addr} {size : Nat}

/-- The bytes of a window. -/
def view (base : K → Addr) (m : Memory) (k : K) (i : Nat) : BitVec 8 :=
    m (base k + BitVec.ofNat 64 i)

/-- The windows of these keys do not meet. -/
def Apart (base : K → Addr) (size : Nat) (keys : List K) : Prop :=
  ∀ k ∈ keys, ∀ l ∈ keys, k ≠ l → ∀ x, InRange (base k) size x → ¬ InRange (base l) size x

/-- The word of `n` bytes at an offset. -/
def word (bytes : Nat → BitVec 8) : Nat → Nat → Nat
  | 0, _ => 0
  | n + 1, i => (bytes i).toNat + 256 * word bytes n (i + 1)

/-- Bytes with a word of `n` bytes written at an offset. -/
def poke (bytes : Nat → BitVec 8) (n offset v : Nat) (i : Nat) : BitVec 8 :=
  if offset ≤ i ∧ i < offset + n then BitVec.ofNat 8 (v / 256 ^ (i - offset)) else bytes i

variable {m : Memory} {k l : K} {keys : List K} {n offset i v : Nat}

/-- A word in memory is the word seen in the window at its offset. -/
theorem loadBytes_eq : loadBytes m n (base k + BitVec.ofNat 64 offset) =
    word (view base m k) n offset := by
  induction n generalizing offset with
  | zero => rfl
  | succ n ih =>
    have next : base k + BitVec.ofNat 64 offset + 1 = base k + BitVec.ofNat 64 (offset + 1) := by
      rw [BitVec.ofNat_add, BitVec.add_assoc]
      rfl
    rw [loadBytes, word, next, ih, view]

/-- A word depends on its bytes alone. -/
theorem word_congr {f g : Nat → BitVec 8} (same : ∀ i, offset ≤ i → i < offset + n → f i = g i) :
    word f n offset = word g n offset := by
  induction n generalizing offset with
  | zero => rfl
  | succ n ih =>
    rw [word, word, same offset (Nat.le_refl _) (by omega), ih fun i low high =>
      same i (by omega) (by omega)]

/-- A word of so many bytes is no larger than they can say. -/
theorem word_lt (f : Nat → BitVec 8) (n offset : Nat) : word f n offset < 256 ^ n := by
  induction n generalizing offset with
  | zero => exact Nat.one_pos
  | succ n ih =>
    have first := (f offset).isLt
    have rest := ih (offset + 1)
    rw [word, Nat.pow_succ]
    omega

/-- A write takes no more of its number than fits. -/
theorem poke_mod (f : Nat → BitVec 8) (n offset v : Nat) :
    poke f n offset (v % 256 ^ n) = poke f n offset v := by
  funext i
  rw [poke, poke]
  split
  · next inside =>
    apply BitVec.eq_of_toNat_eq
    have split' : 256 ^ n = 256 ^ (i - offset) * 256 ^ (n - (i - offset)) := by
      rw [← Nat.pow_add]
      congr 1
      omega
    have divides : 2 ^ 8 ∣ 256 ^ (n - (i - offset)) :=
      dvd_pow_self 256 (Nat.sub_ne_zero_of_lt (by omega))
    rw [BitVec.toNat_ofNat, BitVec.toNat_ofNat, split', Nat.mod_mul_right_div_self,
      Nat.mod_mod_of_dvd _ divides]
  · rfl

/-- A store through a window, seen through it. -/
theorem view_store (small : size ≤ 2 ^ 64) (fits : offset + n ≤ size) (lt : i < size) :
    view base (storeBytes m n (base k + BitVec.ofNat 64 offset) v) k i =
      poke (view base m k) n offset v i := by
  have distance : (base k + BitVec.ofNat 64 i - (base k + BitVec.ofNat 64 offset)).toNat =
      (i + (2 ^ 64 - offset)) % 2 ^ 64 := by
    rw [BitVec.toNat_sub, BitVec.toNat_add, BitVec.toNat_add, BitVec.toNat_ofNat,
      BitVec.toNat_ofNat]
    have := (base k).isLt
    omega
  have within : InRange (base k + BitVec.ofNat 64 offset) n (base k + BitVec.ofNat 64 i) ↔
      offset ≤ i ∧ i < offset + n := by
    rw [InRange, distance]
    omega
  rw [view, storeBytes, poke]
  by_cases inside : offset ≤ i ∧ i < offset + n
  · rw [if_pos (within.mpr inside), if_pos inside, distance,
      show (i + (2 ^ 64 - offset)) % 2 ^ 64 = i - offset by omega]
  · rw [if_neg fun there => inside (within.mp there), if_neg inside, view]

/-- A store through a window leaves what is beside it. -/
theorem store_beside (small : size ≤ 2 ^ 64) (fits : offset + n ≤ size) {x : Addr}
    (beside : ¬ InRange (base k) size x) :
    storeBytes m n (base k + BitVec.ofNat 64 offset) v x = m x := by
  rw [storeBytes, if_neg]
  exact fun inside => beside (inside.within fits small)

/-- A store through one window is not seen through another. -/
theorem view_store_of_ne (small : size ≤ 2 ^ 64) (fits : offset + n ≤ size)
    (apart : Apart base size keys) (hk : k ∈ keys) (hl : l ∈ keys) (ne : k ≠ l) (lt : i < size) :
    view base (storeBytes m n (base k + BitVec.ofNat 64 offset) v) l i = view base m l i :=
  store_beside small fits fun inside => apart k hk l hl ne _ inside (inRange_add lt)

end Skylight.Windows

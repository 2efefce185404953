import Skylight.Lib.Bytes
import Skylight.Mem.Pmm.Pfa

/-!
# Pools of another size

`pmm_realloc_pool` of `mem/pmm/pfa.c`. It is the one function of the allocator that touches what
the pages hold, so the contents of memory stand beside the manager here. The descriptors and the
records of the pools are kept apart from them.
-/

namespace Skylight.Pmm

open Bytes

/-- What memory holds, and the ranges that were written. -/
structure Contents where
  bytes : Memory
  written : List (Addr × Nat)

namespace Contents

/-- `memcpy` -/
def memcpy (c : Contents) (a source n : Nat) : Contents :=
  { bytes := Bytes.memcpy c.bytes (BitVec.ofNat 64 a) (BitVec.ofNat 64 source) n
    written := c.written ++ [(BitVec.ofNat 64 a, n)] }

/-- `memset` with zero. -/
def memset (c : Contents) (a n : Nat) : Contents :=
  { bytes := Bytes.memset c.bytes (BitVec.ofNat 64 a) 0 n
    written := c.written ++ [(BitVec.ofNat 64 a, n)] }

end Contents

/-- The loop of `pmm_realloc_pool` over the records, with those it has passed. A record at the
address for which there is no section is passed like the others. -/
def reallocLoop (pool pageCount : Nat) (s : State) (c : Contents) :
    List Pool → List Pool → Except Fault (Option (Nat × Contents × State))
  | _, [] => .ok none
  | passed, pooli :: rest =>
    if pooli.base = pool then do
      match ← poolSection pageCount s.fuel s s.first with
      | some a =>
        let secStart := (s.sec a).start
        let secPages := (s.sec a).pages
        let s ← pmmLockPages s secStart pageCount
        let c := c.memcpy secStart pooli.base (Word.mul pooli.pages pageSize)
        let c := c.memset pooli.base (Word.mul pooli.pages pageSize)
        let s ← pmmUnlockPages s pooli.base pooli.pages
        return some (secStart, c, { s with pools := passed ++ ⟨secPages, secStart⟩ :: rest })
      | none => reallocLoop pool pageCount s c (passed ++ [pooli]) rest
    else reallocLoop pool pageCount s c (passed ++ [pooli]) rest

/-- `pmm_realloc_pool`; a zero answer is `NULL`. -/
def pmmReallocPool (s : State) (c : Contents) (pool pageCount : Nat) :
    Except Fault (Nat × Contents × State) := do
  if ¬ s.allowing then return (0, c, s)
  if s.pools = [] then return (0, c, s)
  if pool = 0 then return (0, c, s)
  match ← reallocLoop pool pageCount s c [] s.pools with
  | some r => return r
  | none =>
    let s ← pmmRecombine s
    return (pool, c, s)

end Skylight.Pmm

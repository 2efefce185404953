import Skylight.Mem.Pmm.Sections

/-!
# The page frame allocator

`mem/pmm/pfa.c`: allocating, freeing and locking single pages, and pools of pages. Each
function is a guard on `pfa_allowing_allocations` and a walk over the sections; the walk
stands here as its own recursion, entered at `pmm_sections`.
-/

namespace Skylight.Pmm

/-- The walk of `pmm_alloc_page`, answering `base`. Empty sections are unlinked on the way;
the walk then goes on behind the predecessor it stepped back to. -/
def allocPageLoop : Nat → State → Option Nat → Except Fault (Nat × State)
  | _, s, none => .ok (0, s)
  | 0, _, some _ => .error .spin
  | fuel + 1, s, some selected => do
    let sec := s.sec selected
    if sec.pages = 0 then
      let next ← deref (s.sections selected).next
      let s := s.setPrev next (s.sections selected).prev
      let prev ← deref (s.sections selected).prev
      let s := s.setNext prev (s.sections selected).next
      let s := pmmDeleteSection s selected
      allocPageLoop fuel s (s.sections prev).next
    else if sec.free = .free then
      let prev ← deref (s.sections selected).prev
      if (s.sec prev).free = .used then
        let s := s.setVal prev { s.sec prev with pages := Word.add (s.sec prev).pages 1 }
        let s := s.setVal selected
          { sec with pages := Word.sub sec.pages 1, start := Word.add sec.start pageSize }
        return (sec.start, s)
      else
        let s ← pmmSectionSplit s selected (Word.add sec.start pageSize)
        return (sec.start, s.setVal selected { s.sec selected with free := .used })
    else allocPageLoop fuel s (s.sections selected).next

/-- `pmm_alloc_page`; a zero answer is `NULL`. -/
def pmmAllocPage (s : State) : Except Fault (Nat × State) := do
  if ¬ s.allowing then return (0, s)
  let (base, s) ← allocPageLoop s.fuel s s.first
  if base ≠ 0 then return (base, { s with freeMemory := Word.sub s.freeMemory pageSize })
  return (base, s)

/-- The walk of `pmm_free_page`. The flag says whether the walk fell off the end of the list;
the other ways out return from the function and skip the counter. -/
def freePageLoop (page : Nat) : Nat → State → Option Nat → Except Fault (Bool × State)
  | _, s, none => .ok (true, s)
  | 0, _, some _ => .error .spin
  | fuel + 1, s, some selected => do
    let sec := s.sec selected
    if sec.start = page then
      if sec.free = .free then return (false, s)
      if sec.pages = 1 then
        let prev ← deref (s.sections selected).prev
        let next ← deref (s.sections selected).next
        if (s.sec prev).free = .free ∧ (s.sec next).free = .free then
          let s ← pmmSectionCombineNext s selected
          let s ← pmmSectionCombineNext s prev
          return (false, s)
        else if (s.sec prev).free = .free then
          let s ← pmmSectionCombinePrev s selected
          return (false, s)
        else if (s.sec next).free = .free then
          let s ← pmmSectionCombineNext s selected
          return (false, s)
        else
          return (false, s.setVal selected { sec with free := .free })
      else
        let prev ← deref (s.sections selected).prev
        if (s.sec prev).free = .free then
          let s := s.setVal prev { s.sec prev with pages := Word.add (s.sec prev).pages 1 }
          return (false, s.setVal selected
            { sec with start := Word.add sec.start pageSize, pages := Word.sub sec.pages 1 })
        else
          let s ← pmmSectionSplit s selected (Word.add sec.start pageSize)
          return (false, s.setVal selected { s.sec selected with free := .free })
    if sec.start < page then
      let next ← deref (s.sections selected).next
      if page < (s.sec next).start then
        if sec.free = .free then return (false, s)
        if Word.sub (s.sec next).start pageSize = page then
          if (s.sec next).free = .free then
            let s := s.setVal next
              { s.sec next with
                start := Word.sub (s.sec next).start pageSize
                pages := Word.add (s.sec next).pages 1 }
            let s := s.setVal selected { sec with pages := Word.sub sec.pages 1 }
            freePageLoop page fuel s (s.sections selected).next
          else
            let s ← pmmSectionSplit s selected page
            let selected ← deref (s.sections selected).next
            let s ← pmmSectionSplit s selected (Word.add (s.sec selected).start pageSize)
            let s := s.setVal selected { s.sec selected with free := .free }
            freePageLoop page fuel s (s.sections selected).next
        -- a page inside a section, not its first and not its last: no branch of the source
        else freePageLoop page fuel s (s.sections selected).next
      else freePageLoop page fuel s (s.sections selected).next
    else freePageLoop page fuel s (s.sections selected).next

/-- `pmm_free_page` -/
def pmmFreePage (s : State) (page : Nat) : Except Fault State := do
  if ¬ s.allowing then return s
  let (fell, s) ← freePageLoop page s.fuel s s.first
  if fell then return { s with freeMemory := Word.add s.freeMemory pageSize }
  return s

/-- The walk of `pmm_lock_page`. -/
def lockPageLoop (page : Nat) : Nat → State → Option Nat → Except Fault State
  | _, s, none => .ok s
  | 0, _, some _ => .error .spin
  | fuel + 1, s, some selected => do
    let sec := s.sec selected
    if sec.pages = 1 ∧ sec.start = page then
      let s := s.setVal selected { sec with free := .used }
      let prev ← deref (s.sections selected).prev
      let next ← deref (s.sections selected).next
      if (s.sec prev).free = .used ∧ (s.sec next).free = .used then
        let s ← pmmSectionCombineNext s selected
        pmmSectionCombineNext s prev
      else if (s.sec prev).free = .used then pmmSectionCombinePrev s selected
      else if (s.sec next).free = .used then pmmSectionCombineNext s selected
      else return s
    else if sec.start = page then
      if sec.free = .used then return s
      let prev ← deref (s.sections selected).prev
      if (s.sec prev).free = .used then
        let s := s.setVal prev { s.sec prev with pages := Word.add (s.sec prev).pages 1 }
        return s.setVal selected
          { sec with pages := Word.sub sec.pages 1, start := Word.add sec.start pageSize }
      else
        let s ← pmmSectionSplit s selected (Word.add sec.start pageSize)
        return s.setVal selected { s.sec selected with free := .used }
    else if sec.start < page then
      let next ← deref (s.sections selected).next
      if page < (s.sec next).start then
        if sec.free = .used then return s
        if Word.sub (s.sec next).start pageSize = page then
          if (s.sec next).free = .used then
            let s := s.setVal next
              { s.sec next with
                start := Word.sub (s.sec next).start pageSize
                pages := Word.add (s.sec next).pages 1 }
            let s := s.setVal selected { sec with pages := Word.sub sec.pages 1 }
            lockPageLoop page fuel s (s.sections selected).next
          else
            let s ← pmmSectionSplit s selected page
            let selected ← deref (s.sections selected).next
            let s := s.setVal selected { s.sec selected with free := .used }
            lockPageLoop page fuel s (s.sections selected).next
        else
          let s ← pmmSectionSplit s selected page
          let selected ← deref (s.sections selected).next
          let s ← pmmSectionSplit s selected (Word.add (s.sec selected).start pageSize)
          let s := s.setVal selected { s.sec selected with free := .used }
          lockPageLoop page fuel s (s.sections selected).next
      else lockPageLoop page fuel s (s.sections selected).next
    else lockPageLoop page fuel s (s.sections selected).next

/-- `pmm_lock_page` -/
def pmmLockPage (s : State) (page : Nat) : Except Fault State :=
  if ¬ s.allowing then .ok s else lockPageLoop page s.fuel s s.first

/-- `pmm_unlock_page` -/
def pmmUnlockPage (s : State) (page : Nat) : Except Fault State :=
  if ¬ s.allowing then .ok s else pmmFreePage s page

/-- The loop of `pmm_lock_pages` and `pmm_unlock_pages`: one call for each of the `n` pages
from the `i`-th page behind `page` on. -/
def eachPage (call : State → Nat → Except Fault State) (page : Nat) :
    Nat → Nat → State → Except Fault State
  | 0, _, s => .ok s
  | n + 1, i, s => do
    let s ← call s (Word.add page (Word.mul i pageSize))
    eachPage call page n (i + 1) s

/-- `pmm_lock_pages` -/
def pmmLockPages (s : State) (page count : Nat) : Except Fault State :=
  if ¬ s.allowing then .ok s else eachPage pmmLockPage page count 0 s

/-- `pmm_unlock_pages` -/
def pmmUnlockPages (s : State) (page count : Nat) : Except Fault State :=
  if ¬ s.allowing then .ok s else eachPage pmmFreePage page count 0 s

/-- The walk of `pmm_alloc_pool`: the first free section of at least `count` pages. -/
def poolSection (count : Nat) : Nat → State → Option Nat → Except Fault (Option Nat)
  | _, _, none => .ok none
  | 0, _, some _ => .error .spin
  | fuel + 1, s, some selected =>
    if (s.sec selected).pages ≥ count ∧ (s.sec selected).free = .free then .ok (some selected)
    else poolSection count fuel s (s.sections selected).next

/-- Page allocations made while `malloc` maps memory for the heap, their answers in order. -/
def mallocPages : Nat → State → Except Fault (List Nat × State)
  | 0, s => .ok ([], s)
  | n + 1, s => do
    let (p, s) ← pmmAllocPage s
    let (ps, s) ← mallocPages n s
    return (p :: ps, s)

/-- What one call of `malloc` does to the manager: the pages it takes for the heap, and the
stale word that stands in the `base` field of the descriptor it returns. -/
structure Malloc where
  pages : Nat
  stale : Nat
  deriving DecidableEq, Repr

/-- `pmm_alloc_pool`; a zero answer is `NULL`. The pages `malloc` took are answered beside it.
The first descriptor is cleared by the `memset`; every later one keeps its stale `base`
until a section is found. -/
def pmmAllocPool (s : State) (pageCount : Nat) (m : Malloc) :
    Except Fault (Nat × List Nat × State) := do
  if ¬ s.allowing then return (0, [], s)
  let stale := if s.pools = [] then 0 else m.stale
  let (taken, s) ← mallocPages m.pages s
  match ← poolSection pageCount s.fuel s s.first with
  | some a =>
    let base := (s.sec a).start
    let s := { s with pools := s.pools ++ [⟨pageCount, base⟩] }
    let s ← pmmLockPages s base pageCount
    return (base, taken, s)
  | none =>
    let s := { s with pools := s.pools ++ [⟨pageCount, stale⟩] }
    let s ← pmmRecombine s
    return (0, taken, s)

/-- `pmm_free_pool` -/
def pmmFreePool (s : State) (pool : Nat) : Except Fault State := do
  if ¬ s.allowing then return s
  if s.pools = [] then return s
  if pool = 0 then return s
  match s.pools.find? fun p =>
      p.base ≤ pool ∧ Word.add p.base (Word.mul p.pages pageSize) ≥ pool with
  | some p => pmmUnlockPages s p.base p.pages
  | none => pmmRecombine s

end Skylight.Pmm

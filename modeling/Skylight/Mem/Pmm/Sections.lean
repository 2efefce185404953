import Skylight.Mem.Pmm.State

/-!
# Descriptor slots and the edits of the section list

`pmm_new_section`, `pmm_delete_section`, `pmm_section_manager_reindex`,
`pmm_recombine` and `pmm_recalculate_free_memory` of `mem/pmm/pmm.c`, and
`pmm_section_split`, `pmm_section_combine_next` and `pmm_section_combine_prev` of
`mem/pmm/pfa.c`. Writes stand in the order of the source wherever a later read can
see an earlier one.
-/

namespace Skylight.Pmm

/-- A slot `pmm_new_section` takes for free: both links null. -/
def State.unlinked (s : State) (a : Nat) : Bool :=
  (s.sections a).prev.isNone && (s.sections a).next.isNone

/-- `pmm_section_manager_reindex`: the head goes to the first unlinked slot, and to slot 0
when there is none. -/
def pmmSectionManagerReindex (s : State) : State :=
  { s with sectionHead := ((List.range s.capacity).find? s.unlinked).getD 0 }

/-- `pmm_new_section`; the answer is null when the slots have run out. -/
def pmmNewSection (s : State) : Option Nat × State :=
  if s.sectionHead * sectionSize ≥ s.dataSize then (none, s)
  else if s.unlinked s.sectionHead then
    (some s.sectionHead, { s with sectionHead := s.sectionHead + 1 })
  else
    let s := pmmSectionManagerReindex s
    if s.unlinked s.sectionHead then
      (some s.sectionHead, { s with sectionHead := s.sectionHead + 1 })
    else (none, s)

/-- A call of `pmm_new_section` whose answer the caller dereferences at once. -/
def takeSection (s : State) : Except Fault (Nat × State) :=
  match pmmNewSection s with
  | (some a, s) => .ok (a, s)
  | (none, _) => .error .noSection

/-- `pmm_delete_section` -/
def pmmDeleteSection (s : State) (a : Nat) : State :=
  { s with sections := Function.update s.sections a ⟨none, none, .zero⟩ }

@[simp] theorem pmmDeleteSection_sections (s : State) (a c : Nat) :
    (pmmDeleteSection s a).sections c
      = if c = a then ⟨none, none, .zero⟩ else s.sections c := by
  simp only [pmmDeleteSection, Function.update_apply]

/-- `pmm_section_split`: a new section from `splitAt` on takes the rest of `target`. -/
def pmmSectionSplit (s : State) (target splitAt : Nat) : Except Fault State := do
  let t := s.sec target
  if splitAt ≥ Word.add t.start (Word.mul t.pages pageSize) then return s
  let (new, s) ← takeSection s
  let s := match (s.sections target).next with
    | some next =>
      let s := s.setPrev next (some new)
      let s := s.setPrev new (some target)
      let s := s.setNext new (some next)
      s.setNext target (some new)
    | none =>
      let s := s.setNext target (some new)
      s.setPrev new (some target)
  let s := s.setVal new
    { start := splitAt
      pages := Word.sub t.pages (Word.sub splitAt t.start / pageSize)
      free := t.free }
  let cut := Word.sub (Word.add t.start (Word.mul t.pages pageSize)) splitAt / pageSize
  return s.setVal target { t with pages := Word.sub t.pages cut }

/-- `pmm_section_combine_next`: `target` is absorbed by its successor. -/
def pmmSectionCombineNext (s : State) (target : Nat) : Except Fault State := do
  match (s.sections target).next with
  | none => return s
  | some next =>
    if (s.sec target).free ≠ (s.sec next).free then return s
    let s := s.setVal next
      { s.sec next with
        start := (s.sec target).start
        pages := Word.add (s.sec next).pages (s.sec target).pages }
    let s := s.setPrev next (s.sections target).prev
    let prev ← deref (s.sections target).prev
    let s := s.setNext prev (some next)
    return pmmDeleteSection s target

/-- `pmm_section_combine_prev`: `target` is absorbed by its predecessor. -/
def pmmSectionCombinePrev (s : State) (target : Nat) : Except Fault State := do
  match (s.sections target).prev with
  | none => return s
  | some prev =>
    if (s.sec target).free ≠ (s.sec prev).free then return s
    let s := s.setVal prev
      { s.sec prev with pages := Word.add (s.sec prev).pages (s.sec target).pages }
    let s := s.setNext prev (s.sections target).next
    let next ← deref (s.sections target).next
    let s := s.setPrev next (some prev)
    return pmmDeleteSection s target

/-- One walk of `pmm_recombine` from `current`; the flag is its `detected`. After a merge
the walk goes on behind the merged section, so a run of equal sections is joined two by
two. -/
def recombinePass : Nat → State → Option Nat → Bool → Except Fault (Bool × State)
  | _, s, none, detected => .ok (detected, s)
  | 0, _, some _, _ => .error .spin
  | fuel + 1, s, some current, detected => do
    match (s.sections current).next with
    | none => return (detected, s)
    | some next =>
      if (s.sec current).free ≠ (s.sec next).free then
        recombinePass fuel s (some next) detected
      else
        let s := s.setVal current
          { s.sec current with pages := Word.add (s.sec current).pages (s.sec next).pages }
        match (s.sections next).next with
        | some after =>
          let s := s.setNext current (some after)
          let old ← deref (s.sections after).prev
          let s := pmmDeleteSection s old
          let s := s.setPrev after (some current)
          recombinePass fuel s (some after) true
        | none =>
          let s := pmmDeleteSection s next
          let s := s.setNext current none
          return (true, s)

/-- `pmm_recombine`: walks until a walk merges nothing. Every walk but the last empties a
slot, so the slots bound the walks. -/
def recombineLoop : Nat → State → Except Fault State
  | 0, _ => .error .spin
  | fuel + 1, s => do
    let (detected, s) ← recombinePass s.fuel s s.first false
    if detected then recombineLoop fuel s else return s

/-- `pmm_recombine` -/
def pmmRecombine (s : State) : Except Fault State := recombineLoop s.fuel s

/-- The walk of `pmm_recalculate_free_memory`. -/
def recalculateLoop : Nat → State → Option Nat → Nat → Except Fault Nat
  | _, _, none, acc => .ok acc
  | 0, _, some _, _ => .error .spin
  | fuel + 1, s, some current, acc =>
    let acc := if (s.sec current).free = .free
      then Word.add acc (Word.mul (s.sec current).pages pageSize) else acc
    recalculateLoop fuel s (s.sections current).next acc

/-- `pmm_recalculate_free_memory` -/
def pmmRecalculateFreeMemory (s : State) : Except Fault State := do
  let total ← recalculateLoop s.fuel s s.first 0
  return { s with freeMemory := total }

end Skylight.Pmm

import Skylight.Proc.Elf

/-!
# The stops of the copying loop

The loop that copies into mapped pages stands at the stops of a header: its address, the page
boundaries inside its file data, and the end of the file data. It leaves at the first stop that is
not mapped or where nothing of the segment is left, and at none of them it stays at the last for
ever.

What is taken for mapped may change with what is copied, so the loop is looked at for any state,
and the stops are asked what the state shows once the bytes before them are copied. The loader
over a file that stands apart and the loader in the one memory are two cases of it.
-/

namespace Skylight.Elf

open Bytes

/-- An address the copying loop comes to, by the bytes before it. -/
def ElfProgramHeader.IsStop (header : ElfProgramHeader) (x : Nat) : Prop :=
  x ≤ header.pFilesz.toNat ∧
    (x = 0 ∨ x = header.pFilesz.toNat ∨ (header.pVaddr.toNat + x) % 0x1000 = 0)

/-- The loop does not go on from the stop `x`, when `seen` is what it takes for mapped with so many
bytes copied. -/
def Exits (seen : Nat → Addr → Bool) (header : ElfProgramHeader) (x : Nat) : Prop :=
  x = header.pMemsz.toNat ∨ seen x (header.pVaddr + BitVec.ofNat 64 x) = false

/-- The loop comes to the stop `x`. -/
structure Reaches (seen : Nat → Addr → Bool) (header : ElfProgramHeader) (x : Nat) : Prop where
  stop : header.IsStop x
  first : ∀ y < x, header.IsStop y → ¬ Exits seen header y

/-- The stop the loop leaves at. -/
structure ExitsAt (seen : Nat → Addr → Bool) (header : ElfProgramHeader) (x : Nat) : Prop
    extends Reaches seen header x where
  leaves : Exits seen header x

/-- The loop over any state: whether an address is mapped, and what a round copies. -/
def copyLoop {σ : Type} (mapped : σ → Addr → Bool) (copy : σ → ElfProgramHeader → σ) :
    Nat → σ → ElfProgramHeader → Option (σ × Option ElfProgramHeader)
  | 0, _, _ => none
  | fuel + 1, s, header =>
    if mapped s header.pVaddr then
      if (header.advance header.nextPageOffset).pMemsz = 0 then some (copy s header, none)
      else copyLoop mapped copy fuel (copy s header) (header.advance header.nextPageOffset)
    else some (s, some header)

/-- What is seen at the stops of a header, given for every state the loop can be in. -/
structure Follows {σ : Type} (mapped : σ → Addr → Bool) (copy : σ → ElfProgramHeader → σ)
    (seen : σ → ElfProgramHeader → Nat → Addr → Bool) : Prop where
  here : ∀ s header v, seen s header 0 v = mapped s v
  round : ∀ s header y v, seen (copy s header) (header.advance header.nextPageOffset) y v
    = seen s header (header.nextPageOffset.toNat + y) v

section
variable {x y : Nat} {header : ElfProgramHeader} {seen seen' : Nat → Addr → Bool}

/-! ### The stops -/

/-- A round copies to the end of the page, or what is left of the file data. -/
theorem nextPageOffset_toNat : header.nextPageOffset.toNat =
    min (0x1000 - header.pVaddr.toNat % 0x1000) header.pFilesz.toNat := by
  unfold ElfProgramHeader.nextPageOffset
  have whole : (0x1000 - header.pVaddr % 0x1000 : Addr).toNat
      = 0x1000 - header.pVaddr.toNat % 0x1000 := by
    rw [BitVec.toNat_sub, BitVec.toNat_umod]
    show (2 ^ 64 - header.pVaddr.toNat % 0x1000 + 0x1000) % 2 ^ 64 = _
    omega
  simp only [gt_iff_lt, BitVec.lt_def, whole]
  split
  next lt => exact (Nat.min_eq_right (Nat.le_of_lt lt)).symm
  next ge => rw [whole, Nat.min_eq_left (Nat.le_of_not_lt ge)]

/-- The address of the header is a stop. -/
theorem isStop_zero : header.IsStop 0 := ⟨Nat.zero_le _, Or.inl rfl⟩

/-- The stops behind the first are those of the rest. -/
theorem isStop_advance (y : Nat) : (header.advance header.nextPageOffset).IsStop y ↔
    header.IsStop (header.nextPageOffset.toNat + y) := by
  have le := @nextPageOffset_toNat header
  have small := header.pFilesz.isLt
  have vsmall := header.pVaddr.isLt
  have filesz : (header.pFilesz - header.nextPageOffset).toNat
      = header.pFilesz.toNat - header.nextPageOffset.toNat := by
    rw [BitVec.toNat_sub]
    omega
  have vaddr : (header.pVaddr + header.nextPageOffset).toNat % 0x1000
      = (header.pVaddr.toNat + header.nextPageOffset.toNat) % 0x1000 := by
    rw [BitVec.toNat_add]
    omega
  simp only [ElfProgramHeader.IsStop, ElfProgramHeader.advance, filesz]
  rw [Nat.add_mod, vaddr]
  generalize header.nextPageOffset.toNat = n at *
  constructor
  · intro h
    omega
  · intro h
    omega

/-- There is no stop before the end of the first page. -/
theorem isStop_before (lt : y < header.nextPageOffset.toNat) (stop : header.IsStop y) : y = 0 := by
  have le := @nextPageOffset_toNat header
  obtain ⟨hy, zero | last | boundary⟩ := stop
  · exact zero
  · omega
  · omega

/-- Nothing copied, nothing changed. -/
theorem advance_zero : header.advance 0 = header := by
  simp [ElfProgramHeader.advance]

/-- No step. -/
theorem add_ofNat_zero (a : Addr) : a + BitVec.ofNat 64 0 = a := BitVec.add_zero a

/-- Two rounds are one advance. -/
theorem advance_advance (n : Addr) (y : Nat) :
    (header.advance n).advance (BitVec.ofNat 64 y)
      = header.advance (BitVec.ofNat 64 (n.toNat + y)) := by
  have sum : BitVec.ofNat 64 (n.toNat + y) = n + BitVec.ofNat 64 y := by
    rw [BitVec.ofNat_add, BitVec.ofNat_toNat, BitVec.setWidth_eq]
  have add (a : Addr) : a + n + BitVec.ofNat 64 y = a + (n + BitVec.ofNat 64 y) :=
    BitVec.add_assoc ..
  have sub (a : Addr) : a - n - BitVec.ofNat 64 y = a - (n + BitVec.ofNat 64 y) := by
    apply BitVec.eq_of_toNat_eq
    simp only [BitVec.toNat_sub, BitVec.toNat_add, BitVec.toNat_ofNat]
    have := a.isLt
    have := n.isLt
    omega
  simp only [ElfProgramHeader.advance, sum, add, sub]

/-- A header is used up when all of it has been copied. -/
theorem eq_of_sub_eq_zero {a n : Addr} (h : a - n = 0) : n = a := by
  have zero := congrArg BitVec.toNat h
  rw [BitVec.toNat_sub, show (0 : Addr).toNat = 0 from rfl] at zero
  apply BitVec.eq_of_toNat_eq
  have := a.isLt
  have := n.isLt
  omega

/-- There is one stop to leave at. -/
theorem ExitsAt.unique (h : ExitsAt seen header x) (h' : ExitsAt seen header y) : x = y := by
  rcases Nat.lt_trichotomy x y with lt | eq | gt
  · exact absurd h.leaves (h'.first x lt h.stop)
  · exact eq
  · exact absurd h'.leaves (h.first y gt h'.stop)

/-- The first of the stops to leave at. -/
theorem exists_exitsAt : (∃ x, header.IsStop x ∧ Exits seen header x) ↔
    ∃ x, ExitsAt seen header x := by
  classical
  constructor
  · intro some_stop
    refine ⟨Nat.find some_stop, ⟨(Nat.find_spec some_stop).1, ?_⟩, (Nat.find_spec some_stop).2⟩
    intro y lt stop leaves
    exact Nat.find_min some_stop lt ⟨stop, leaves⟩
  · intro ⟨x, at_⟩
    exact ⟨x, at_.stop, at_.leaves⟩

/-- Two views that are the same at every stop one of them comes to leave at the same stop. -/
theorem exitsAt_congr (same : ∀ y, Reaches seen header y → ∀ v, seen' y v = seen y v) :
    ExitsAt seen' header x ↔ ExitsAt seen header x := by
  have exits {y : Nat} (reach : Reaches seen header y) :
      Exits seen' header y ↔ Exits seen header y := by
    rw [Exits, Exits, same y reach]
  constructor
  · intro at_
    -- the stops before `x` are come to one after the other
    have before : ∀ y ≤ x, header.IsStop y → Reaches seen header y := by
      intro y
      induction y using Nat.strongRecOn with
      | ind y ih =>
        intro le stop
        refine ⟨stop, fun z lt here => ?_⟩
        rw [← exits (ih z lt (by omega) here)]
        exact at_.first z (by omega) here
    have reach := before x le_rfl at_.stop
    exact ⟨reach, (exits reach).mp at_.leaves⟩
  · intro at_
    refine ⟨⟨at_.stop, fun y lt here => ?_⟩, (exits at_.toReaches).mpr at_.leaves⟩
    rw [exits ⟨here, fun z less => at_.first z (less.trans lt)⟩]
    exact at_.first y lt here

end

/-! ### The loop -/

section
variable {σ : Type} {mapped : σ → Addr → Bool} {copy : σ → ElfProgramHeader → σ}
  {seen : σ → ElfProgramHeader → Nat → Addr → Bool} {s : σ} {header : ElfProgramHeader}
  {fuel x y : Nat}

/-- One round: the copy, and the rest of the header. -/
theorem copyLoop_succ (here : mapped s header.pVaddr = true) :
    copyLoop mapped copy (fuel + 1) s header =
      if (header.advance header.nextPageOffset).pMemsz = 0 then some (copy s header, none)
      else copyLoop mapped copy fuel (copy s header) (header.advance header.nextPageOffset) := by
  rw [copyLoop, if_pos here]

/-- The loop leaves at once where nothing is mapped. -/
theorem copyLoop_unmapped (unmapped : mapped s header.pVaddr = false) :
    copyLoop mapped copy (fuel + 1) s header = some (s, some header) := by
  rw [copyLoop, if_neg (by rw [unmapped]; exact Bool.false_ne_true)]

variable (follows : Follows mapped copy seen)
include follows

/-- Behind a round the stops to leave at are the same. -/
theorem Follows.exits_advance (stop : (header.advance header.nextPageOffset).IsStop y) :
    Exits (seen (copy s header) (header.advance header.nextPageOffset))
        (header.advance header.nextPageOffset) y ↔
      Exits (seen s header) header (header.nextPageOffset.toNat + y) := by
  have le := @nextPageOffset_toNat header
  have small := header.pFilesz.isLt
  have msmall := header.pMemsz.isLt
  have bound := ((isStop_advance y).mp stop).1
  have memsz : y = (header.pMemsz - header.nextPageOffset).toNat ↔
      header.nextPageOffset.toNat + y = header.pMemsz.toNat := by
    rw [BitVec.toNat_sub]
    omega
  have vaddr : header.pVaddr + header.nextPageOffset + BitVec.ofNat 64 y
      = header.pVaddr + BitVec.ofNat 64 (header.nextPageOffset.toNat + y) := by
    rw [BitVec.add_assoc, BitVec.ofNat_add, BitVec.ofNat_toNat, BitVec.setWidth_eq]
  rw [Exits, Exits, follows.round]
  simp only [ElfProgramHeader.advance, memsz, vaddr]

/-- A page that is mapped is not left while there is something of the segment. -/
theorem Follows.not_exits_zero (nonempty : header.pMemsz ≠ 0)
    (here : mapped s header.pVaddr = true) : ¬ Exits (seen s header) header 0 := by
  rintro (none_left | unmapped)
  · exact nonempty (BitVec.eq_of_toNat_eq none_left.symm)
  · rw [add_ofNat_zero, follows.here, here] at unmapped
    simp at unmapped

/-- Behind a mapped first page the loop comes where it comes with the rest. -/
theorem Follows.reaches_advance (nonempty : header.pMemsz ≠ 0)
    (here : mapped s header.pVaddr = true) :
    Reaches (seen (copy s header) (header.advance header.nextPageOffset))
        (header.advance header.nextPageOffset) y ↔
      Reaches (seen s header) header (header.nextPageOffset.toNat + y) := by
  constructor
  · intro ⟨stop, first⟩
    refine ⟨(isStop_advance y).mp stop, fun z lt at_ => ?_⟩
    by_cases before : z < header.nextPageOffset.toNat
    · rw [isStop_before before at_]
      exact follows.not_exits_zero nonempty here
    · obtain ⟨z, rfl⟩ := Nat.exists_eq_add_of_le (Nat.le_of_not_lt before)
      have at' := (isStop_advance z).mpr at_
      rw [← follows.exits_advance at']
      exact first z (by omega) at'
  · intro ⟨stop, first⟩
    refine ⟨(isStop_advance y).mpr stop, fun z lt at_ => ?_⟩
    rw [follows.exits_advance at_]
    exact first _ (by omega) ((isStop_advance z).mp at_)

/-- And leaves where it leaves the rest. -/
theorem Follows.exitsAt_advance (nonempty : header.pMemsz ≠ 0)
    (here : mapped s header.pVaddr = true) :
    ExitsAt (seen (copy s header) (header.advance header.nextPageOffset))
        (header.advance header.nextPageOffset) y ↔
      ExitsAt (seen s header) header (header.nextPageOffset.toNat + y) := by
  have reaches := @Follows.reaches_advance _ _ _ _ s header y follows nonempty here
  constructor
  · intro ⟨reach, leaves⟩
    exact ⟨reaches.mp reach, (follows.exits_advance reach.stop).mp leaves⟩
  · intro ⟨reach, leaves⟩
    exact ⟨reaches.mpr reach, (follows.exits_advance (reaches.mpr reach).stop).mpr leaves⟩

/-- The loop leaves at a stop that is the first it can leave at, with what is behind it and with
whatever its rounds have made. -/
theorem Follows.run (made : σ → ElfProgramHeader → Nat → σ → Prop)
    (refl : ∀ s header, made s header 0 s)
    (round : ∀ s header y t, made (copy s header) (header.advance header.nextPageOffset) y t →
      made s header (header.nextPageOffset.toNat + y) t) {r : σ × Option ElfProgramHeader} :
    ∀ {fuel : Nat} {s : σ} {header : ElfProgramHeader}, header.pMemsz ≠ 0 →
      copyLoop mapped copy fuel s header = some r →
        ∃ x, ExitsAt (seen s header) header x ∧ made s header x r.1 ∧
          r.2 = if x = header.pMemsz.toNat then none
            else some (header.advance (BitVec.ofNat 64 x)) := by
  intro fuel
  -- A round copies up to the next stop, and the rest of the header has the stops behind it.
  induction fuel with
  | zero =>
    intro s header _ run
    simp [copyLoop] at run
  | succ fuel ih =>
    intro s header nonempty run
    have some_left : (0 : Nat) ≠ header.pMemsz.toNat := fun e =>
      nonempty (BitVec.eq_of_toNat_eq e.symm)
    cases here : mapped s header.pVaddr with
    | false =>
      rw [copyLoop_unmapped here, Option.some.injEq] at run
      subst run
      have leaves : Exits (seen s header) header 0 := by
        right
        rwa [add_ofNat_zero, follows.here]
      refine ⟨0, ⟨⟨isStop_zero, fun y lt => absurd lt (Nat.not_lt_zero y)⟩, leaves⟩, refl .., ?_⟩
      rw [if_neg some_left, show BitVec.ofNat 64 0 = (0 : Addr) from rfl, advance_zero]
    | true =>
      rw [copyLoop_succ here] at run
      split at run
      next done =>
        rw [Option.some.injEq] at run
        subst run
        have all : header.nextPageOffset = header.pMemsz := eq_of_sub_eq_zero done
        have once := round s header 0 (copy s header) (refl ..)
        rw [Nat.add_zero] at once
        refine ⟨header.nextPageOffset.toNat, ?_, once, ?_⟩
        · have stop := (@isStop_advance header 0).mp isStop_zero
          rw [Nat.add_zero] at stop
          refine ⟨⟨stop, fun y lt at_ => ?_⟩, Or.inl (by rw [all])⟩
          rw [isStop_before lt at_]
          exact follows.not_exits_zero nonempty here
        · rw [all, if_pos rfl]
      next more =>
        obtain ⟨y, at_, rounds, left⟩ := ih more run
        have stop := (follows.exitsAt_advance nonempty here).mp at_
        refine ⟨_, stop, round _ _ _ _ rounds, ?_⟩
        rw [left, advance_advance]
        have le := @nextPageOffset_toNat header
        have same : y = (header.advance header.nextPageOffset).pMemsz.toNat ↔
            header.nextPageOffset.toNat + y = header.pMemsz.toNat := by
          have bound := stop.stop.1
          have small := header.pFilesz.isLt
          have msmall := header.pMemsz.isLt
          simp only [ElfProgramHeader.advance, BitVec.toNat_sub]
          omega
        simp only [same]

/-- Where there is a stop to leave at the loop comes to it. -/
theorem Follows.ends : ∀ {x : Nat} {s : σ} {header : ElfProgramHeader}, header.pMemsz ≠ 0 →
    ExitsAt (seen s header) header x → ∃ fuel, (copyLoop mapped copy fuel s header).isSome := by
  intro x
  induction x using Nat.strongRecOn with
  | ind x ih =>
    intro s header nonempty at_
    cases here : mapped s header.pVaddr with
    | false => exact ⟨1, Option.isSome_iff_exists.mpr ⟨_, copyLoop_unmapped here⟩⟩
    | true =>
      have pos : x ≠ 0 := fun zero => follows.not_exits_zero nonempty here (zero ▸ at_.leaves)
      have behind : header.nextPageOffset.toNat ≤ x :=
        Nat.le_of_not_lt fun before => pos (isStop_before before at_.stop)
      have moves : 0 < header.nextPageOffset.toNat := by
        have bound := at_.stop.1
        rw [nextPageOffset_toNat]
        omega
      by_cases done : (header.advance header.nextPageOffset).pMemsz = 0
      · exact ⟨1, by rw [copyLoop_succ here, if_pos done, Option.isSome_some]⟩
      · obtain ⟨y, rfl⟩ := Nat.exists_eq_add_of_le behind
        have later := (follows.exitsAt_advance nonempty here).mpr at_
        obtain ⟨fuel, run⟩ := ih y (by omega) done later
        exact ⟨fuel + 1, by rw [copyLoop_succ here, if_neg done]; exact run⟩

/-- The loop ends just when there is a stop to leave at. -/
theorem Follows.ends_iff (nonempty : header.pMemsz ≠ 0) :
    (∃ fuel, (copyLoop mapped copy fuel s header).isSome) ↔
      ∃ x, header.IsStop x ∧ Exits (seen s header) header x := by
  rw [exists_exitsAt]
  constructor
  · intro ⟨fuel, run⟩
    obtain ⟨r, run⟩ := Option.isSome_iff_exists.mp run
    obtain ⟨x, at_, -⟩ := follows.run (fun _ _ _ _ => True) (fun _ _ => trivial)
      (fun _ _ _ _ _ => trivial) nonempty run
    exact ⟨x, at_⟩
  · intro ⟨x, at_⟩
    exact follows.ends nonempty at_

end

end Skylight.Elf

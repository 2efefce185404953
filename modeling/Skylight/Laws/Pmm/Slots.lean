import Skylight.Lib.Outcome
import Skylight.Mem.Pmm.Start

/-!
# The descriptor array represents a list of sections

`Represents s l` ties the array of a state to the list of sections it stands for, slot
numbers beside the sections. Each edit the source makes of its links and data is one law
here, stated on the list: take a slot, split a section, absorb a section into a
neighbour, unlink an empty one, move a page across a seam. The walks of the allocator
are proved from these laws and never look at a link again.
-/

namespace Skylight.Pmm

open Chain

/-- The descriptor array of `s` holds the sections `l`, doubly linked from slot 0. -/
structure Represents (s : State) (l : List (Nat × Section)) : Prop where
  started : s.pmmSections ≠ 0
  list : Seg s.sections none l none
  head : headOr l none = some 0
  slots : ∀ a ∈ keys l, a * sectionSize < s.dataSize

/-- The globals that no edit of the section list touches. -/
structure SameGlobals (s s' : State) : Prop where
  pmmSections : s'.pmmSections = s.pmmSections
  dataSize : s'.dataSize = s.dataSize
  freeMemory : s'.freeMemory = s.freeMemory
  allowing : s'.allowing = s.allowing
  pools : s'.pools = s.pools

/-- Nothing touched. -/
theorem SameGlobals.refl (s : State) : SameGlobals s s := ⟨rfl, rfl, rfl, rfl, rfl⟩

/-- One edit after another. -/
theorem SameGlobals.trans {s t u : State} (h : SameGlobals s t) (k : SameGlobals t u) :
    SameGlobals s u :=
  ⟨k.1.trans h.1, k.2.trans h.2, k.3.trans h.3, k.4.trans h.4, k.5.trans h.5⟩

/-- The one failure left when null links are never followed and walks end. -/
def OutOfSections (f : Fault) : Prop := f = .noSection

/-- The failure of a call that takes a section when `need` holds, there being none. -/
def Lacks (s : State) (need : Prop) (f : Fault) : Prop :=
  f = .noSection ∧ need ∧ takeSection s = .error .noSection

/-- Where a section is needed, there is one. -/
def Has (s : State) (need : Prop) : Prop := need → ∃ r, takeSection s = .ok r

/-- A section that was lacking is the one failure. -/
theorem Lacks.out {s : State} {need : Prop} (f : Fault) (h : Lacks s need f) : OutOfSections f :=
  h.1

/-! ## Reading a represented list -/

namespace Represents

variable {s : State} {l l₁ l₂ : List (Nat × Section)} {a : Nat} {v : Section}

/-- No slot is in the list twice. -/
theorem nodup (h : Represents s l) : (keys l).Nodup := h.list.nodup

/-- The walk begins at the first slot. -/
theorem first_eq (h : Represents s l) : s.first = headOr l none := by
  rw [h.head, State.first, if_neg h.started]

/-- The data of a slot are those of the list. -/
theorem sec_eq (h : Represents s (l₁ ++ (a, v) :: l₂)) : s.sec a = v := by
  rw [State.sec, h.list.node]

/-- Its link forward is to the slot behind it. -/
theorem next_eq (h : Represents s (l₁ ++ (a, v) :: l₂)) :
    (s.sections a).next = headOr l₂ none := by
  rw [h.list.node]

/-- Its link back is to the slot before it. -/
theorem prev_eq (h : Represents s (l₁ ++ (a, v) :: l₂)) :
    (s.sections a).prev = lastOr none l₁ := by
  rw [h.list.node]

/-- A state stands for one list. -/
theorem unique {l' : List (Nat × Section)} (h : Represents s l) (h' : Represents s l') : l = l' :=
  h.list.determined h'.list (h.head.trans h'.head.symm)

/-- No list has more sections than the array has slots. -/
theorem length_le (h : Represents s l) : l.length ≤ s.capacity := by
  have bound : ∀ a ∈ keys l, a < s.capacity := by
    intro a ha
    have := h.slots a ha
    simp only [State.capacity, sectionSize] at *
    omega
  simpa using length_le_of_nodup_of_lt h.nodup bound

/-- A representation needs only the array, its place and its size. -/
theorem congr {s' : State} (h : Represents s l) (hs : s'.sections = s.sections)
    (hp : s'.pmmSections = s.pmmSections) (hd : s'.dataSize = s.dataSize) : Represents s' l :=
  ⟨hp ▸ h.started, hs ▸ h.list, h.head, hd ▸ h.slots⟩

end Represents

/-! ## Taking a slot -/

/-- The slots of the array are those that begin inside the data area. -/
theorem capacity_room {s : State} {i : Nat} : i < s.capacity ↔ i * sectionSize < s.dataSize := by
  simp only [State.capacity, sectionSize]
  omega

/-- What is handed out looks unlinked, and the head goes behind it. -/
theorem pmmNewSection_some {s s' : State} {n : Nat} (call : pmmNewSection s = (some n, s')) :
    s.unlinked n = true ∧ n < s.capacity ∧ s' = { s with sectionHead := n + 1 } := by
  unfold pmmNewSection at call
  split at call
  next => simp at call
  next room =>
    split at call
    next free =>
      simp only [Prod.mk.injEq, Option.some.injEq] at call
      obtain ⟨rfl, rfl⟩ := call
      exact ⟨free, capacity_room.mpr (Nat.lt_of_not_le room), rfl⟩
    next =>
      simp only at call
      split at call
      next free =>
        simp only [Prod.mk.injEq, Option.some.injEq] at call
        obtain ⟨rfl, rfl⟩ := call
        refine ⟨free, ?_, rfl⟩
        have some_slot := capacity_room.mpr (Nat.lt_of_not_le room)
        simp only [pmmSectionManagerReindex]
        cases hf : (List.range s.capacity).find? s.unlinked with
        | none => exact Nat.zero_lt_of_lt some_slot
        | some i => exact List.mem_range.mp (List.mem_of_find?_eq_some hf)
      next => simp at call

/-- A slot handed out is unlinked and begins inside the data area. -/
theorem takeSection_slot (s : State) :
    Yields OutOfSections (fun r => ∃ k, r.2 = { s with sectionHead := k } ∧
      (s.sections r.1).prev = none ∧ (s.sections r.1).next = none ∧
      r.1 * sectionSize < s.dataSize) (takeSection s) := by
  unfold takeSection
  split
  next n s' call =>
    obtain ⟨unlinked, lt, rfl⟩ := pmmNewSection_some call
    have links : (s.sections n).prev = none ∧ (s.sections n).next = none := by
      simpa [State.unlinked] using unlinked
    exact ⟨_, rfl, links.1, links.2, capacity_room.mp lt⟩
  next => rfl

/-- The same, with what the call did and did not do. -/
theorem takeSection_yields (s : State) :
    Yields (Lacks s True) (fun r => takeSection s = .ok r ∧
      ∃ k, r.2 = { s with sectionHead := k } ∧ (s.sections r.1).prev = none ∧
        (s.sections r.1).next = none ∧ r.1 * sectionSize < s.dataSize) (takeSection s) := by
  have ok : Yields OutOfSections (fun r => ∃ k, r.2 = { s with sectionHead := k } ∧
      (s.sections r.1).prev = none ∧ (s.sections r.1).next = none ∧
      r.1 * sectionSize < s.dataSize) (takeSection s) := takeSection_slot s
  cases h : takeSection s with
  | ok r => exact ⟨rfl, ok.of_ok h⟩
  | error f =>
    rw [h] at ok
    obtain rfl : f = .noSection := ok
    exact ⟨rfl, trivial, h⟩

/-- Where at least two sections are linked, a slot handed out is none of theirs. -/
theorem Represents.fresh {s : State} {l : List (Nat × Section)} (h : Represents s l)
    (two : 2 ≤ l.length) {n : Nat} (hp : (s.sections n).prev = none)
    (hn : (s.sections n).next = none) : n ∉ keys l := by
  intro mem
  rcases h.list.linked two mem with hne | hne
  · exact hne hp
  · exact hne hn

/-! ## Edits of the data -/

/-- Writing the data of a section. -/
theorem Represents.setVal {s : State} {l₁ l₂ : List (Nat × Section)} {a : Nat} {v : Section}
    (h : Represents s (l₁ ++ (a, v) :: l₂)) (w : Section) :
    Represents (s.setVal a w) (l₁ ++ (a, w) :: l₂) := by
  refine ⟨h.started, h.list.set h.nodup (by simp [State.setVal]) fun c hc => ?_, ?_, ?_⟩
  · simp [State.setVal, Function.update_of_ne hc]
  · have := h.head
    cases l₁ <;> simpa using this
  · simpa [State.setVal] using h.slots

/-- Writing the data of two neighbours, the left one first. -/
theorem Represents.setVal₂ {s : State} {l₁ l₂ : List (Nat × Section)} {a b : Nat} {v w : Section}
    (h : Represents s (l₁ ++ (a, v) :: (b, w) :: l₂)) (v' w' : Section) :
    Represents ((s.setVal a v').setVal b w') (l₁ ++ (a, v') :: (b, w') :: l₂) := by
  have h₁ : Represents (s.setVal a v') ((l₁ ++ [(a, v')]) ++ (b, w) :: l₂) := by
    simpa using h.setVal v'
  simpa using h₁.setVal w'

/-- Writing the data of two neighbours, the right one first. -/
theorem Represents.setVal₂' {s : State} {l₁ l₂ : List (Nat × Section)} {a b : Nat}
    {v w : Section} (h : Represents s (l₁ ++ (a, v) :: (b, w) :: l₂)) (v' w' : Section) :
    Represents ((s.setVal b w').setVal a v') (l₁ ++ (a, v') :: (b, w') :: l₂) := by
  have h₁ : Represents s ((l₁ ++ [(a, v)]) ++ (b, w) :: l₂) := by simpa using h
  have h₂ : Represents (s.setVal b w') (l₁ ++ (a, v) :: (b, w') :: l₂) := by
    simpa using h₁.setVal w'
  exact h₂.setVal v'

/-- Data written to a slot touch nothing else. -/
theorem sameGlobals_setVal (s : State) (a : Nat) (w : Section) :
    SameGlobals s (s.setVal a w) := ⟨rfl, rfl, rfl, rfl, rfl⟩

/-! ## Inserting -/

/-- A fresh slot linked in behind `a`. -/
theorem Represents.insert {s s' : State} {l₁ l₂ : List (Nat × Section)} {a n : Nat}
    {v v' w : Section} (h : Represents s (l₁ ++ (a, v) :: l₂)) (same : SameGlobals s s')
    (fresh : n ∉ keys (l₁ ++ (a, v) :: l₂)) (room : n * sectionSize < s.dataSize)
    (left : s'.sections a = ⟨(s.sections a).prev, some n, v'⟩)
    (here : s'.sections n = ⟨some a, headOr l₂ none, w⟩)
    (right : ∀ c, headOr l₂ none = some c →
      s'.sections c = { s.sections c with prev := some n })
    (rest : ∀ c, c ≠ a → c ≠ n → headOr l₂ none ≠ some c → s'.sections c = s.sections c) :
    Represents s' (l₁ ++ (a, v') :: (n, w) :: l₂) := by
  refine ⟨same.pmmSections ▸ h.started, h.list.insert h.nodup fresh left here right rest, ?_, ?_⟩
  · rw [← h.head]
    cases l₁ <;> rfl
  · intro b hb
    rw [same.dataSize]
    by_cases e : b = n
    · rw [e]; exact room
    · refine h.slots b ?_
      simp only [List.map_append, List.map_cons, List.mem_append, List.mem_cons] at hb ⊢
      grind

/-! ## Splitting -/

section
variable {s : State} {l₁ l₂ : List (Nat × Section)} {a : Nat} {v : Section}

/-- A split at the end of a section or behind it does nothing. -/
theorem pmmSectionSplit_end (h : Represents s (l₁ ++ (a, v) :: l₂)) {at_ : Nat}
    (ge : Word.add v.start (Word.mul v.pages pageSize) ≤ at_) :
    pmmSectionSplit s a at_ = .ok s := by
  unfold pmmSectionSplit
  simp only [h.sec_eq, ge_iff_le, ge, ↓reduceIte]
  rfl

/-- A split after `k` pages leaves `k` pages to the section and gives the rest to a new one
behind it, of the same kind. -/
theorem pmmSectionSplit_yields (h : Represents s (l₁ ++ (a, v) :: l₂))
    (two : 2 ≤ (l₁ ++ (a, v) :: l₂).length) (fits : v.start + v.pages * pageSize < 2 ^ 64)
    {k : Nat} (hk : k < v.pages) :
    Yields (Lacks s True) (fun s' => Has s True ∧ SameGlobals s s' ∧ ∃ n, Represents s'
        (l₁ ++ (a, ⟨v.start, k, v.free⟩)
          :: (n, ⟨v.start + k * pageSize, v.pages - k, v.free⟩) :: l₂))
      (pmmSectionSplit s a (v.start + k * pageSize)) := by
  have hat : v.start + k * pageSize < v.start + v.pages * pageSize := by
    simp only [pageSize]; omega
  have hpages : v.pages < 2 ^ 64 := by simp only [pageSize] at fits; omega
  have hfin : Word.add v.start (Word.mul v.pages pageSize) = v.start + v.pages * pageSize := by
    rw [Word.mul_eq (Nat.lt_of_le_of_lt (Nat.le_add_left ..) fits), Word.add_eq fits]
  have hrest : Word.sub (v.start + k * pageSize) v.start / pageSize = k := by
    rw [Word.sub_eq (hat.trans fits) (Nat.le_add_right ..)]
    simp only [pageSize]; omega
  have hcut : Word.sub (v.start + v.pages * pageSize) (v.start + k * pageSize) / pageSize
      = v.pages - k := by
    rw [Word.sub_eq fits hat.le]
    simp only [pageSize]; omega
  have hleft : Word.sub v.pages (v.pages - k) = k := by
    rw [Word.sub_eq hpages (Nat.sub_le ..)]; omega
  have hright : Word.sub v.pages k = v.pages - k := Word.sub_eq hpages hk.le
  unfold pmmSectionSplit
  rw [h.sec_eq]
  simp only [hfin, hrest, hcut, hleft, hright]
  rw [if_neg (Nat.not_le_of_lt hat)]
  refine (takeSection_yields s).bind fun ⟨n, t⟩ ⟨taken, head, ht, hp, hn, room⟩ => ?_
  simp only at ht hp hn room
  subst ht
  have fresh := h.fresh two hp hn
  have hna : n ≠ a := fun e => fresh (by simp [e])
  simp only [pure_eq_ok, yields_ok, h.next_eq]
  cases l₂ with
  | nil =>
    refine ⟨fun _ => ⟨_, taken⟩, ⟨rfl, rfl, rfl, rfl, rfl⟩, n, ?_⟩
    refine h.insert ⟨rfl, rfl, rfl, rfl, rfl⟩ fresh room ?_ ?_ (by simp) ?_
    · simp [hna.symm]
    · simp [hna, hn]
    · intro c hca hcn _
      simp [hca, hcn]
  | cons y l₂ =>
    obtain ⟨b, w⟩ := y
    have hnb : n ≠ b := fun e => fresh (by simp [e])
    have hab : a ≠ b := by
      have nd := h.nodup
      simp only [List.map_append, List.map_cons, List.nodup_append, List.nodup_cons,
        List.mem_cons, not_or] at nd
      exact nd.2.1.1.1
    refine ⟨fun _ => ⟨_, taken⟩, ⟨rfl, rfl, rfl, rfl, rfl⟩, n, ?_⟩
    refine h.insert ⟨rfl, rfl, rfl, rfl, rfl⟩ fresh room ?_ ?_ ?_ ?_
    · simp [hna.symm, hab]
    · simp [hna, hnb]
    · intro c hc
      obtain rfl : b = c := by simpa using hc
      simp [hab.symm, hnb.symm]
    · intro c hca hcn hcb
      have : c ≠ b := fun e => hcb (by simp [e])
      simp [hca, hcn, this]

end

/-! ## Unlinking -/

section
variable {s s' : State} {l₁ l₂ : List (Nat × Section)} {p a b : Nat} {u v w : Section}

/-- Three neighbours of a list are three slots. -/
theorem Represents.distinct (h : Represents s (l₁ ++ (p, u) :: (a, v) :: (b, w) :: l₂)) :
    p ≠ a ∧ p ≠ b ∧ a ≠ b := by
  have nd := h.nodup
  simp only [List.map_append, List.map_cons, List.nodup_append, List.nodup_cons,
    List.mem_cons, not_or] at nd
  exact ⟨nd.2.1.1.1, nd.2.1.1.2.1, nd.2.1.2.1.1⟩

/-- Neighbours linked past a section take it out of the list. -/
theorem Represents.unlink {u' w' : Section}
    (h : Represents s (l₁ ++ (p, u) :: (a, v) :: (b, w) :: l₂)) (same : SameGlobals s s')
    (left : s'.sections p = ⟨(s.sections p).prev, some b, u'⟩)
    (right : s'.sections b = ⟨some p, (s.sections b).next, w'⟩)
    (rest : ∀ d, d ≠ p → d ≠ a → d ≠ b → s'.sections d = s.sections d) :
    Represents s' (l₁ ++ (p, u') :: (b, w') :: l₂) := by
  refine ⟨same.pmmSections ▸ h.started, h.list.unlink h.nodup left right rest, ?_, ?_⟩
  · rw [← h.head]
    cases l₁ <;> rfl
  · intro d hd
    rw [same.dataSize]
    refine h.slots d ?_
    simp only [List.map_append, List.map_cons, List.mem_append, List.mem_cons] at hd ⊢
    grind

/-- Sections of different kinds are not combined. -/
theorem pmmSectionCombineNext_ne (h : Represents s (l₁ ++ (a, v) :: (b, w) :: l₂))
    (ne : v.free ≠ w.free) : pmmSectionCombineNext s a = .ok s := by
  have hb : s.sec b = w := by
    have : Represents s ((l₁ ++ [(a, v)]) ++ (b, w) :: l₂) := by simpa using h
    exact this.sec_eq
  unfold pmmSectionCombineNext
  simp only [h.next_eq, h.sec_eq, hb, headOr_cons, ne_eq, ne, not_false_eq_true, ↓reduceIte]
  rfl

/-- A section is absorbed by a successor of its kind. -/
theorem pmmSectionCombineNext_eq (h : Represents s (l₁ ++ (p, u) :: (a, v) :: (b, w) :: l₂))
    (same : v.free = w.free) (fits : w.pages + v.pages < 2 ^ 64) :
    ∃ s', pmmSectionCombineNext s a = .ok s' ∧ SameGlobals s s' ∧
      Represents s' (l₁ ++ (p, u) :: (b, ⟨v.start, w.pages + v.pages, w.free⟩) :: l₂) := by
  obtain ⟨hpa, hpb, hab⟩ := h.distinct
  have h₁ : Represents s ((l₁ ++ [(p, u)]) ++ (a, v) :: (b, w) :: l₂) := by simpa using h
  have h₂ : Represents s ((l₁ ++ [(p, u), (a, v)]) ++ (b, w) :: l₂) := by simpa using h
  unfold pmmSectionCombineNext
  simp only [h₁.next_eq, h₁.sec_eq, h₂.sec_eq, headOr_cons, same, ne_eq, not_true_eq_false,
    ↓reduceIte, Word.add_eq fits, State.setVal_sections, if_neg hab, h₁.prev_eq,
    lastOr_append, lastOr_cons, lastOr_nil, State.setPrev_sections, deref_some]
  refine ⟨_, rfl, ⟨rfl, rfl, rfl, rfl, rfl⟩, h.unlink ⟨rfl, rfl, rfl, rfl, rfl⟩ ?_ ?_ ?_⟩
  · simp [hpa, hpb, h.list.node]
  · simp [hab.symm, hpb.symm]
  · intro d hdp hda hdb
    simp [hdp, hda, hdb]

/-- A section is absorbed by a predecessor of its kind. -/
theorem pmmSectionCombinePrev_eq (h : Represents s (l₁ ++ (p, u) :: (a, v) :: (b, w) :: l₂))
    (same : v.free = u.free) (fits : u.pages + v.pages < 2 ^ 64) :
    ∃ s', pmmSectionCombinePrev s a = .ok s' ∧ SameGlobals s s' ∧
      Represents s' (l₁ ++ (p, { u with pages := u.pages + v.pages }) :: (b, w) :: l₂) := by
  obtain ⟨hpa, hpb, hab⟩ := h.distinct
  have h₁ : Represents s ((l₁ ++ [(p, u)]) ++ (a, v) :: (b, w) :: l₂) := by simpa using h
  have h₂ : Represents s ((l₁ ++ [(p, u), (a, v)]) ++ (b, w) :: l₂) := by simpa using h
  unfold pmmSectionCombinePrev
  simp only [h₁.prev_eq, h₁.sec_eq, h.sec_eq, lastOr_append, lastOr_cons, lastOr_nil, same, ne_eq,
    not_true_eq_false, ↓reduceIte, Word.add_eq fits, State.setVal_sections, if_neg hpa.symm,
    h₁.next_eq, headOr_cons, State.setNext_sections, deref_some]
  refine ⟨_, rfl, ⟨rfl, rfl, rfl, rfl, rfl⟩, h.unlink ⟨rfl, rfl, rfl, rfl, rfl⟩ ?_ ?_ ?_⟩
  · simp [hpa, hpb]
  · simp [hab.symm, hpb.symm, h₂.list.node]
  · intro d hdp hda hdb
    simp [hdp, hda, hdb]

/-- Sections of different kinds are not combined. -/
theorem pmmSectionCombinePrev_ne (h : Represents s (l₁ ++ (p, u) :: (a, v) :: l₂))
    (ne : v.free ≠ u.free) : pmmSectionCombinePrev s a = .ok s := by
  have h₁ : Represents s ((l₁ ++ [(p, u)]) ++ (a, v) :: l₂) := by simpa using h
  unfold pmmSectionCombinePrev
  simp only [h₁.prev_eq, h₁.sec_eq, h.sec_eq, lastOr_append, lastOr_cons, lastOr_nil, ne_eq, ne,
    not_false_eq_true, ↓reduceIte]
  rfl

/-- The edit by which `pmm_alloc_page` drops an empty section. -/
theorem Represents.dropSection (h : Represents s (l₁ ++ (p, u) :: (a, v) :: (b, w) :: l₂)) :
    Represents (pmmDeleteSection ((s.setPrev b (some p)).setNext p (some b)) a)
      (l₁ ++ (p, u) :: (b, w) :: l₂) := by
  obtain ⟨hpa, hpb, hab⟩ := h.distinct
  have h₂ : Represents s ((l₁ ++ [(p, u), (a, v)]) ++ (b, w) :: l₂) := by simpa using h
  refine h.unlink ⟨rfl, rfl, rfl, rfl, rfl⟩ ?_ ?_ ?_
  · simp [hpa, hpb, h.list.node]
  · simp [hab.symm, hpb.symm, h₂.list.node]
  · intro d hdp hda hdb
    simp [hdp, hda, hdb]

end

end Skylight.Pmm

import Skylight.Laws.Pmm.Build

/-!
# Memory maps in order

The maps `pmm_start` is written for, what such a map says of each page, and the list the
building loop makes of it. Everything here is counted in pages: an entry in order begins
and ends at page boundaries.

`kindIn` is the meaning of a map, and `built_from` says that the sections of the building loop
have it. A valid map ends with bad memory; `FirmwareMap` leaves that out, and `beyond` then
stands for what the code could run into behind the last section.
-/

namespace Skylight.Pmm

open Chain RunLength

/-- An entry covers a page. -/
def Covers (e : MemoryMapEntry) (p : Nat) : Prop :=
  e.base ≤ p * pageSize ∧ p * pageSize < e.fin

instance (e : MemoryMapEntry) (p : Nat) : Decidable (Covers e p) :=
  inferInstanceAs (Decidable (_ ∧ _))

/-- The kind a map gives a page: that of the entry that covers it, and bad in a gap. -/
def kindIn (map : List MemoryMapEntry) (p : Nat) : SectionType :=
  match map.find? fun e => Covers e p with
  | some e => pmmInterpretSignal e.signal
  | none => .bad

/-- A map for `pmm_start`: the first megabyte first, then entries of whole pages, sorted and
disjoint, memory mapped devices or unusable memory last. -/
structure ValidMap (map : List MemoryMapEntry) : Prop where
  words : ∀ e ∈ map, e.base < 2 ^ 64 ∧ e.length < 2 ^ 64
  first : map.head? = some ⟨0, megabyte, memoryMapNouse⟩
  bases : ∀ e ∈ map.tail, megabyte ≤ e.base ∧ pageSize ∣ e.base
  lengths : ∀ e ∈ map.tail, 0 < e.length ∧ pageSize ∣ e.length
  sorted : map.Pairwise fun d e => d.base < e.base
  disjoint : map.Pairwise fun d e => d.fin ≤ e.base ∨ e.fin ≤ d.base
  last : ∃ e, map.getLast? = some e ∧ (e.signal = memoryMapMmio ∨ e.signal = memoryMapNouse)

/-- A map that may end with memory of any kind: then the last entry ends at an address. -/
structure FirmwareMap (map : List MemoryMapEntry) : Prop where
  words : ∀ e ∈ map, e.base < 2 ^ 64 ∧ e.length < 2 ^ 64
  first : map.head? = some ⟨0, megabyte, memoryMapNouse⟩
  bases : ∀ e ∈ map.tail, megabyte ≤ e.base ∧ pageSize ∣ e.base
  lengths : ∀ e ∈ map.tail, 0 < e.length ∧ pageSize ∣ e.length
  sorted : map.Pairwise fun d e => d.base < e.base
  disjoint : map.Pairwise fun d e => d.fin ≤ e.base ∨ e.fin ≤ d.base
  ends : ∀ e, map.getLast? = some e → pmmInterpretSignal e.signal ≠ .bad → e.fin < 2 ^ 64

/-- What may stand behind the last section of such a map, if it is not bad: nothing that the code
could see, and bad memory in the proofs. -/
def beyond (map : List MemoryMapEntry) : List Section :=
  match map.getLast? with
  | none => []
  | some e => if pmmInterpretSignal e.signal = .bad then [] else [⟨e.fin, 1, .bad⟩]

/-- What may stand behind the last section is bad. -/
theorem beyond_bad {map : List MemoryMapEntry} : ∀ w ∈ beyond map, w.free = .bad := by
  intro w mem
  unfold beyond at mem
  split at mem
  · cases mem
  · split at mem
    · cases mem
    · rw [List.mem_singleton.mp mem]

/-- The last entry of a valid map is bad. -/
theorem ValidMap.last_bad {map : List MemoryMapEntry} (valid : ValidMap map) :
    ∃ e, map.getLast? = some e ∧ pmmInterpretSignal e.signal = .bad := by
  obtain ⟨e, last, kind⟩ := valid.last
  refine ⟨e, last, ?_⟩
  rcases kind with mmio | nouse
  · rw [mmio]
    rfl
  · rw [nouse]
    rfl

/-- A valid map is one of the firmware's. -/
theorem ValidMap.firmware {map : List MemoryMapEntry} (valid : ValidMap map) : FirmwareMap map where
  words := valid.words
  first := valid.first
  bases := valid.bases
  lengths := valid.lengths
  sorted := valid.sorted
  disjoint := valid.disjoint
  ends e last good := by
    obtain ⟨d, last', bad⟩ := valid.last_bad
    rw [last', Option.some.injEq] at last
    exact absurd (last ▸ bad) good

/-- Nothing stands behind its last section. -/
theorem ValidMap.beyond_eq {map : List MemoryMapEntry} (valid : ValidMap map) :
    beyond map = [] := by
  obtain ⟨e, last, bad⟩ := valid.last_bad
  unfold beyond
  rw [last]
  exact if_pos bad

/-- The entries stand in order from page `c` on, on whole pages. -/
def InOrder : Nat → List MemoryMapEntry → Prop
  | _, [] => True
  | c, e :: es => ∃ b n, e.base = b * pageSize ∧ e.length = n * pageSize ∧ 0 < n ∧ c ≤ b ∧
      e.base < 2 ^ 64 ∧ e.length < 2 ^ 64 ∧ InOrder (b + n) es

/-- The page behind the last entry. -/
def endPage : Nat → List MemoryMapEntry → Nat
  | c, [] => c
  | _, e :: es => endPage (e.fin / pageSize) es

/-- The page behind the last entry, from the entry. -/
theorem endPage_eq {es : List MemoryMapEntry} {e : MemoryMapEntry} :
    ∀ {c : Nat}, es.getLast? = some e → endPage c es = e.fin / pageSize := by
  induction es with
  | nil => simp
  | cons d es ih =>
    intro c h
    cases es with
    | nil =>
      obtain rfl : d = e := by simpa using h
      rfl
    | cons x es => exact @ih (d.fin / pageSize) (by simpa using h)

/-- An entry of whole pages ends at a page. -/
theorem fin_div {e : MemoryMapEntry} {b n : Nat} (hb : e.base = b * pageSize)
    (hn : e.length = n * pageSize) : e.fin = (b + n) * pageSize ∧ e.fin / pageSize = b + n := by
  have : e.fin = (b + n) * pageSize := by rw [MemoryMapEntry.fin, hb, hn, Nat.add_mul]
  exact ⟨this, by rw [this, Nat.mul_div_cancel _ (by simp [pageSize])]⟩

/-- An entry covers the pages from its first to its last. -/
theorem covers_iff {e : MemoryMapEntry} {b n p : Nat} (hb : e.base = b * pageSize)
    (hn : e.length = n * pageSize) : Covers e p ↔ b ≤ p ∧ p < b + n := by
  have pos : 0 < pageSize := by simp [pageSize]
  rw [Covers, (fin_div hb hn).1, hb, Nat.mul_le_mul_right_iff pos,
    Nat.mul_lt_mul_right pos]

/-- The entries in order from `c` on cover no page before `c`. -/
theorem InOrder.le {es : List MemoryMapEntry} : ∀ {c : Nat}, InOrder c es → ∀ e ∈ es, ∀ p,
    Covers e p → c ≤ p := by
  induction es with
  | nil => simp
  | cons d es ih =>
    rintro c ⟨b, n, hb, hn, pos, le, -, -, order⟩ e he p hp
    rcases List.mem_cons.mp he with rfl | he
    · exact le.trans ((covers_iff hb hn).mp hp).1
    · have := ih order e he p hp
      omega

/-- A page is covered by one entry at most, and gets that entry's kind. -/
theorem InOrder.kindIn_eq {es : List MemoryMapEntry} : ∀ {c : Nat}, InOrder c es → ∀ e ∈ es,
    ∀ p, Covers e p → kindIn es p = pmmInterpretSignal e.signal := by
  induction es with
  | nil => simp
  | cons d es ih =>
    rintro c ⟨b, n, hb, hn, pos, le, -, -, order⟩ e he p hp
    rcases List.mem_cons.mp he with rfl | he
    · simp [kindIn, hp]
    · have : ¬ Covers d p := by
        rw [covers_iff hb hn]
        have := order.le e he p hp
        omega
      rw [← ih order e he p hp]
      simp [kindIn, this]

/-- The last entry ends at the end. -/
theorem InOrder.le_end {es : List MemoryMapEntry} : ∀ {c : Nat}, InOrder c es →
    c ≤ endPage c es := by
  induction es with
  | nil => exact fun _ => le_rfl
  | cons d es ih =>
    rintro c ⟨b, n, hb, hn, pos, le, -, -, order⟩
    have := ih order
    rw [endPage, (fin_div hb hn).2]
    omega

/-- No entry covers a page behind the end. -/
theorem InOrder.lt_end {es : List MemoryMapEntry} : ∀ {c : Nat}, InOrder c es → ∀ e ∈ es, ∀ p,
    Covers e p → p < endPage c es := by
  induction es with
  | nil => simp
  | cons d es ih =>
    rintro c ⟨b, n, hb, hn, pos, le, -, -, order⟩ e he p hp
    rw [endPage, (fin_div hb hn).2]
    rcases List.mem_cons.mp he with rfl | he
    · exact Nat.lt_of_lt_of_le ((covers_iff hb hn).mp hp).2 order.le_end
    · exact ih order e he p hp

/-- The entries in order are made of whole pages. -/
theorem InOrder.aligned {es : List MemoryMapEntry} : ∀ {c : Nat}, InOrder c es → ∀ e ∈ es,
    ∃ b n, e.base = b * pageSize ∧ e.length = n * pageSize := by
  induction es with
  | nil => simp
  | cons d es ih =>
    rintro c ⟨b, n, hb, hn, -, -, -, -, order⟩ e he
    rcases List.mem_cons.mp he with rfl | he
    · exact ⟨b, n, hb, hn⟩
    · exact ih order e he

/-- A page is free exactly when a free entry covers it. -/
theorem InOrder.kindIn_free {es : List MemoryMapEntry} {c p : Nat} (order : InOrder c es) :
    kindIn es p = .free ↔ ∃ e ∈ es, e.signal = memoryMapFree ∧ Covers e p := by
  constructor
  · intro h
    rw [kindIn] at h
    split at h
    next e he =>
      refine ⟨e, List.mem_of_find?_eq_some he, ?_, by simpa using List.find?_some he⟩
      rw [pmmInterpretSignal] at h
      split_ifs at h with h₁ h₂
      exact h₂
    next => cases h
  · rintro ⟨e, mem, hs, hp⟩
    rw [order.kindIn_eq e mem p hp, hs]
    rfl

/-- A page is used exactly when a busy entry covers it. -/
theorem InOrder.kindIn_used {es : List MemoryMapEntry} {c p : Nat} (order : InOrder c es) :
    kindIn es p = .used ↔ ∃ e ∈ es, e.signal = memoryMapBusy ∧ Covers e p := by
  constructor
  · intro h
    rw [kindIn] at h
    split at h
    next e he =>
      refine ⟨e, List.mem_of_find?_eq_some he, ?_, by simpa using List.find?_some he⟩
      rw [pmmInterpretSignal] at h
      split_ifs at h with h₁ h₂
      exact h₁
    next => cases h
  · rintro ⟨e, mem, hs, hp⟩
    rw [order.kindIn_eq e mem p hp, hs]
    rfl

/-- A page no entry covers is bad. -/
theorem kindIn_gap {es : List MemoryMapEntry} {p : Nat}
    (gap : ∀ e ∈ es, ¬ Covers e p) : kindIn es p = .bad := by
  have : es.find? (fun e => Covers e p) = none := by simpa using gap
  simp [kindIn, this]

/-- Whole pages are not rounded. -/
theorem pagesFor_mul {n : Nat} : pagesFor (n * pageSize) = n := by
  simp [pagesFor, Nat.mul_div_cancel _ (show 0 < pageSize by simp [pageSize])]

/-! ## The list built from a map in order -/

/-- `l` is the list of sections of the entries `es` from page `c` on. -/
structure BuildsFrom (c : Nat) (es : List MemoryMapEntry) (l : List Section) : Prop where
  contiguous : Contiguous (c * pageSize) l
  covers : c + pagesOf l = endPage c es
  words : ∀ v ∈ l, v.start < 2 ^ 64
  nonempty : ∀ v ∈ l, v.pages ≠ 0
  kinds : ∀ p, c ≤ p → p < c + pagesOf l → typeAt l (p - c) = some (kindIn es p)
  last : ∀ e, es.getLast? = some e → ∃ l' v, l = l' ++ [v] ∧ v.free = pmmInterpretSignal e.signal

/-- No entries, no sections. -/
theorem BuildsFrom.nil (c : Nat) : BuildsFrom c [] [] :=
  ⟨trivial, rfl, by simp, by simp, by simp; omega, by simp⟩

/-- The section of an entry goes in front. -/
theorem BuildsFrom.entry {c n : Nat} {e : MemoryMapEntry} {es : List MemoryMapEntry}
    {l : List Section} (h : BuildsFrom (c + n) es l) (hb : e.base = c * pageSize)
    (hn : e.length = n * pageSize) (pos : 0 < n) (word : e.base < 2 ^ 64)
    (order : InOrder (c + n) es) :
    BuildsFrom c (e :: es) (⟨e.base, n, pmmInterpretSignal e.signal⟩ :: l) := by
  refine ⟨⟨hb, ?_⟩, ?_, ?_, ?_, fun p lo hi => ?_, fun d hd => ?_⟩
  · rw [← Nat.add_mul]
    exact h.contiguous
  · rw [pagesOf_cons, endPage, (fin_div hb hn).2, ← h.covers, Nat.add_assoc]
  · exact List.forall_mem_cons.mpr ⟨word, h.words⟩
  · have := h.nonempty
    simp only [List.mem_cons, forall_eq_or_imp]
    exact ⟨by omega, this⟩
  · have tot : pagesOf (⟨e.base, n, pmmInterpretSignal e.signal⟩ :: l) = n + pagesOf l := rfl
    rw [tot] at hi
    simp only [typeAt, runs_cons, valueAt_cons]
    by_cases inside : p < c + n
    · have hp : Covers e p := (covers_iff hb hn).mpr ⟨lo, inside⟩
      rw [if_pos (by omega)]
      simp [kindIn, hp]
    · have hp : ¬ Covers e p := by
        rw [covers_iff hb hn]
        omega
      have := h.kinds p (by omega) (by omega)
      rw [if_neg (by omega), Nat.sub_sub]
      simp only [kindIn, List.find?_cons, hp, decide_false] at this ⊢
      exact this
  · rcases List.eq_nil_or_concat es with rfl | ⟨es', x, rfl⟩
    · obtain rfl : e = d := by simpa using hd
      have : l = [] := by
        have hp := h.covers
        rw [endPage] at hp
        cases l with
        | nil => rfl
        | cons v l =>
          have := h.nonempty v (by simp)
          rw [pagesOf_cons] at hp
          omega
      exact ⟨[], _, by rw [this]; rfl, rfl⟩
    · obtain ⟨l', v, rfl, hv⟩ := h.last d (by
        rw [List.getLast?_cons_of_ne_nil (by simp)] at hd
        exact hd)
      exact ⟨_ :: l', v, rfl, hv⟩

/-- The section of a gap goes in front. -/
theorem BuildsFrom.gap {c b : Nat} {es : List MemoryMapEntry} {l : List Section}
    (h : BuildsFrom b es l) (lt : c < b) (ne : es ≠ []) (word : c * pageSize < 2 ^ 64)
    (order : InOrder b es) : BuildsFrom c es (⟨c * pageSize, b - c, .bad⟩ :: l) := by
  have tot : c + (b - c + pagesOf l) = b + pagesOf l := by omega
  refine ⟨⟨rfl, ?_⟩, ?_, ?_, ?_, fun p lo hi => ?_, fun d hd => ?_⟩
  · rw [← Nat.add_mul, Nat.add_sub_cancel' lt.le]
    exact h.contiguous
  · rw [pagesOf_cons, tot, h.covers]
    cases es with
    | nil => exact absurd rfl ne
    | cons e es => rfl
  · exact List.forall_mem_cons.mpr ⟨word, h.words⟩
  · have := h.nonempty
    simp only [List.mem_cons, forall_eq_or_imp]
    exact ⟨by omega, this⟩
  · rw [pagesOf_cons, tot] at hi
    simp only [typeAt, runs_cons, valueAt_cons]
    by_cases inside : p < b
    · rw [if_pos (by omega), kindIn_gap]
      intro e he hp
      have := order.le e he p hp
      omega
    · have := h.kinds p (by omega) hi
      rw [if_neg (by omega), Nat.sub_sub, Nat.add_sub_cancel' lt.le]
      exact this
  · obtain ⟨l', v, rfl, hv⟩ := h.last d hd
    exact ⟨_ :: l', v, rfl, hv⟩

/-- What the building loop makes of entries in order: a section for each entry and one for each gap,
which join on to each other from the first to the last. -/
theorem built_from {es : List MemoryMapEntry} : ∀ {c : Nat} {v : Section},
    v.start + v.pages * pageSize = c * pageSize → v.pages ≠ 0 → InOrder c es →
      BuildsFrom c es (built v es) := by
  -- An entry begins where the one before ends, or a gap comes between them.
  induction es with
  | nil => exact fun _ _ _ => .nil _
  | cons e es ih =>
    rintro c v fin pos ⟨b, n, hb, hn, npos, le, hbw, hnw, order⟩
    have cle : c * pageSize ≤ e.base := by rw [hb]; exact Nat.mul_le_mul_right _ le
    have word : c * pageSize < 2 ^ 64 := Nat.lt_of_le_of_lt cle hbw
    have ne : e.base ≠ v.start := by simp only [pageSize] at fin cle; omega
    have hfin : Word.add v.start (Word.mul v.pages pageSize) = c * pageSize := by
      rw [← fin] at word ⊢
      rw [Word.mul_eq (Nat.lt_of_le_of_lt (Nat.le_add_left ..) word), Word.add_eq word]
    have rest := @ih (b + n) ⟨e.base, n, pmmInterpretSignal e.signal⟩
      (by rw [hb, Nat.add_mul]) (by simp; omega) order
    have here := rest.entry hb hn npos hbw order
    rw [built, if_neg ne, hfin, hn, pagesFor_mul]
    by_cases gap : c * pageSize = e.base
    · have hcb : c = b := by simp only [pageSize] at hb gap; omega
      subst hcb
      simpa [gap] using here
    · have lt : c < b := by
        rcases Nat.lt_or_eq_of_le le with lt | rfl
        · exact lt
        · exact absurd hb.symm gap
      have hgap : pagesFor (Word.sub e.base (c * pageSize)) = b - c := by
        rw [Word.sub_eq hbw cle, hb, ← Nat.sub_mul, pagesFor_mul]
      simp only [gap, ne_eq, not_false_eq_true, ↓reduceIte, hgap]
      exact here.gap lt (by simp) word ⟨b, n, hb, hn, npos, le_rfl, hbw, hnw, order⟩

end Skylight.Pmm

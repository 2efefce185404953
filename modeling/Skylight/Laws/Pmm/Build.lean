import Skylight.Mem.Pmm.Start
import Skylight.Laws.Pmm.Recombine

/-!
# The list `pmm_start` builds

The building loop of `pmm_start` links a section for every entry of the map, and one for
every gap, behind the sections it has built before. `built` says which sections these
are, for any map at all; what they mean for a map in order is said elsewhere.

The loop is followed by induction on the entries that are left, from the section it stands on. A
slot that is not there is a failure here (`OutOfSections`), and `Laws.Pmm.Room` counts the
slots.
-/

namespace Skylight.Pmm

open Chain RunLength

/-- The sections the building loop puts behind `current`. -/
def built : Section → List MemoryMapEntry → List Section
  | _, [] => []
  | current, e :: es =>
    if e.base = current.start then built current es
    else
      let new : Section := ⟨e.base, pagesFor e.length, pmmInterpretSignal e.signal⟩
      let fin := Word.add current.start (Word.mul current.pages pageSize)
      if fin ≠ e.base then ⟨fin, pagesFor (Word.sub e.base fin), .bad⟩ :: new :: built new es
      else new :: built new es

/-- A slot taken now is none of the list's. -/
def TakesFresh (s : State) (l : List (Nat × Section)) : Prop :=
  2 ≤ l.length ∨ (keys l = [0] ∧ s.sectionHead ≠ 0 ∧
    (s.sectionHead * sectionSize < s.dataSize → s.unlinked s.sectionHead = true))

/-- Taking a slot for a list. -/
theorem takeSection_fresh {s : State} {l : List (Nat × Section)} (h : Represents s l)
    (fresh : TakesFresh s l) :
    Yields OutOfSections (fun r => ∃ k, r.2 = { s with sectionHead := k } ∧ r.1 ∉ keys l ∧
      r.1 * sectionSize < s.dataSize) (takeSection s) := by
  rcases fresh with two | ⟨hkeys, ne, clear⟩
  · exact (takeSection_slot s).imp fun r ⟨k, hr, hp, hn, room⟩ =>
      ⟨k, hr, h.fresh two hp hn, room⟩
  · by_cases room : s.sectionHead * sectionSize < s.dataSize
    · have : takeSection s = .ok (s.sectionHead, { s with sectionHead := s.sectionHead + 1 }) := by
        simp only [takeSection, pmmNewSection, if_neg (Nat.not_le_of_lt room), clear room,
          ↓reduceIte]
      rw [this]
      exact ⟨_, rfl, by simpa [hkeys] using ne, room⟩
    · have : takeSection s = .error .noSection := by
        simp only [takeSection, pmmNewSection, if_pos (Nat.le_of_not_lt room)]
      rw [this]
      exact rfl

/-! ## One entry -/

/-- The section of an entry. -/
def entrySection (e : MemoryMapEntry) : Section :=
  ⟨e.base, pagesFor e.length, pmmInterpretSignal e.signal⟩

/-- The first address behind a section, as a word. -/
def Section.fin (v : Section) : Nat := Word.add v.start (Word.mul v.pages pageSize)

/-- The section of the gap between a section and an entry. -/
def gapSection (v : Section) (e : MemoryMapEntry) : Section :=
  ⟨v.fin, pagesFor (Word.sub e.base v.fin), .bad⟩

/-- The edit that puts the section `w` behind the last one. -/
def State.linkLast (s : State) (a n : Nat) (w : Section) : State :=
  (((s.setNext a (some n)).setPrev n (some a)).setNext n none).setVal n w

/-- The edit that puts the section `x` between the last two. -/
def State.linkGap (s : State) (a g n : Nat) (x : Section) : State :=
  ((((s.setNext a (some g)).setPrev g (some a)).setNext g (some n)).setVal g x).setPrev n (some g)

/-- The sections of an entry, by the three ways of the source: it begins where the current
section does, behind it, or right at its end. -/
theorem built_cons (v : Section) (e : MemoryMapEntry) (es : List MemoryMapEntry) :
    built v (e :: es) = if e.base = v.start then built v es
      else if v.fin ≠ e.base then gapSection v e :: entrySection e :: built (entrySection e) es
      else entrySection e :: built (entrySection e) es := rfl

/-- The loop at an entry that does not begin where the current section does. -/
theorem startLoop_cons {s : State} {a : Nat} {e : MemoryMapEntry} {es : List MemoryMapEntry}
    (ne : e.base ≠ (s.sec a).start) :
    startLoop (e :: es) s a = takeSection s >>= fun r =>
      let t := r.2.linkLast a r.1 (entrySection e)
      if (t.sec a).fin ≠ e.base then
        takeSection t >>= fun q =>
          startLoop es (q.2.linkGap a q.1 r.1 (gapSection (t.sec a) e)) r.1
      else startLoop es t r.1 := by
  rw [startLoop, if_neg ne]
  rfl

section
variable {s : State} {l : List (Nat × Section)} {a n g : Nat} {v w x : Section}

/-- The list with a section more at its end. -/
theorem Represents.linkLast (h : Represents s (l ++ [(a, v)])) (fresh : n ∉ keys (l ++ [(a, v)]))
    (room : n * sectionSize < s.dataSize) (k : Nat) (w : Section) :
    Represents (({ s with sectionHead := k } : State).linkLast a n w) (l ++ [(a, v), (n, w)]) := by
  have hna : n ≠ a := fun e => fresh (by simp [e])
  refine h.insert ⟨rfl, rfl, rfl, rfl, rfl⟩ fresh room ?_ ?_ (by simp) ?_
  · simp [State.linkLast, hna.symm, h.list.node]
  · simp [State.linkLast]
  · intro c hca hcn _
    simp [State.linkLast, hca, hcn]

/-- The list with the section of a gap before the last one. -/
theorem Represents.linkGap (h : Represents s (l ++ [(a, v), (n, w)]))
    (fresh : g ∉ keys (l ++ [(a, v), (n, w)])) (room : g * sectionSize < s.dataSize) (k : Nat)
    (x : Section) :
    Represents (({ s with sectionHead := k } : State).linkGap a g n x)
      (l ++ [(a, v), (g, x), (n, w)]) := by
  have hga : g ≠ a := fun e => fresh (by simp [e])
  have hgn : g ≠ n := fun e => fresh (by simp [e])
  have hna : n ≠ a := by
    have nd := h.nodup
    simp only [List.map_append, List.map_cons, List.map_nil, List.nodup_append] at nd
    exact Ne.symm (by simpa using nd.2.1)
  refine h.insert ⟨rfl, rfl, rfl, rfl, rfl⟩ fresh room ?_ ?_ ?_ ?_
  · simp [State.linkGap, hna.symm, hga.symm, h.list.node]
  · simp [State.linkGap, hgn]
  · intro c hc
    obtain rfl : n = c := by simpa using hc
    simp [State.linkGap, hgn.symm, hna]
  · intro c hca hcg hcn
    have : c ≠ n := fun e => hcn (by simp [e])
    simp [State.linkGap, hca, hcg, this]

end

/-- The building loop, from the section it stands on. -/
theorem startLoop_yields {es : List MemoryMapEntry} :
    ∀ {l : List (Nat × Section)} {s : State} {a : Nat} {v : Section},
      Represents s (l ++ [(a, v)]) → TakesFresh s (l ++ [(a, v)]) →
      Yields OutOfSections (fun s' => SameGlobals s s' ∧
          ∃ l', Represents s' (l ++ (a, v) :: l') ∧ data l' = built v es)
        (startLoop es s a) := by
  -- Induction on the entries that are left, the section the loop stands on being the last of the
  -- list.
  induction es with
  | nil => exact fun {l s a v} h _ => ⟨.refl s, [], h, rfl⟩
  | cons e es ih =>
    intro l s a v h fresh
    rw [built_cons]
    by_cases skip : e.base = v.start
    · rw [if_pos skip, startLoop, h.sec_eq, if_pos skip]
      exact ih h fresh
    rw [if_neg skip, startLoop_cons (by rwa [h.sec_eq])]
    refine (takeSection_fresh h fresh).bind fun ⟨n, t⟩ ⟨k, ht, hn, room⟩ => ?_
    simp only at ht hn room
    subst ht
    have last := h.linkLast hn room k (entrySection e)
    simp only [last.sec_eq]
    by_cases gap : v.fin = e.base
    · rw [if_neg (not_not.mpr gap), if_neg (not_not.mpr gap)]
      have onward := @ih (l ++ [(a, v)]) _ n (entrySection e) (by simpa using last)
        (Or.inl (by simp))
      refine onward.imp fun s' ⟨same, l', hr, hd⟩ => ?_
      refine ⟨⟨same.1, same.2, same.3, same.4, same.5⟩, _ :: l', by simpa using hr, ?_⟩
      rw [data_cons, hd]
    · rw [if_pos gap, if_pos gap]
      refine (takeSection_fresh last (Or.inl (by simp))).bind fun ⟨g, t⟩ ⟨k', ht, hg, room'⟩ => ?_
      simp only at ht hg room'
      subst ht
      have both := last.linkGap hg room' k' (gapSection v e)
      have onward := @ih (l ++ [(a, v), (g, gapSection v e)]) _ n (entrySection e)
        (by simpa using both) (Or.inl (by simp))
      refine onward.imp fun s' ⟨same, l', hr, hd⟩ => ?_
      refine ⟨⟨same.1, same.2, same.3, same.4, same.5⟩, _ :: _ :: l', by simpa using hr, ?_⟩
      rw [data_cons, data_cons, hd]

end Skylight.Pmm

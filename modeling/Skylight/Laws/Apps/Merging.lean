import Mathlib.Data.List.Pairwise
import Mathlib.Logic.Relation
import Skylight.Laws.Apps.Malloc
import Skylight.Lib.Chain

/-!
# Two ways to merge

The kernel and prism have the same `header_combine_forward` but for one line: prism clears the
header of the segment that is taken up before it reads where that one leads. What is behind it is
no longer behind `segment`, so the two leave the same chain exactly when nothing is.
-/

namespace Skylight.Merging

open Chain Bytes
open Heap (Header Far headerSize)

/-- A link, which is null at the ends. -/
def link (a : Addr) : Option Addr := if a = 0 then none else some a

/-- A header as a node: its links, and its length with its mark. -/
def node (h : Heap) (a : Addr) : Node Addr (Addr × Bool) :=
  ⟨link (h.last a), link (h.next a), (h.length a, h.isFree a)⟩

/-- The segments of a heap from `heap_start` to `last_header`, each with its length and its mark. -/
structure WellFormed (h : Heap) (segs : List (Addr × Addr × Bool)) : Prop where
  start : headOr segs none = some h.heapStart
  linked : Seg (node h) none segs none
  last : lastOr none segs = some h.lastHeader
  nonzero : ∀ a ∈ keys segs, a ≠ 0
  apart : (keys segs).Pairwise Far

/-- The links lead from one header to another. -/
def Reaches (h : Heap) : Addr → Addr → Prop :=
  Relation.ReflTransGen fun a b => link (h.next a) = some b

/-- Both merges leave the same segments with the same lengths, marks and links, and prism's still
leads from `segment` to the ones behind the one that is taken up. -/
structure Alike (h : Heap) (segment : Addr) (behind : List (Addr × Addr × Bool)) : Prop where
  chain : ∃ segs, WellFormed (h.headerCombineForward segment) segs ∧
    WellFormed (UserHeap.headerCombineForward h segment) segs
  reaches : ∀ a ∈ keys behind.tail, Reaches (UserHeap.headerCombineForward h segment) segment a

section
variable {h h' : Heap} {a b k s y : Addr} {v w : Addr × Bool} {p n : Option Addr}
  {pre post segs : List (Addr × Addr × Bool)}

/-- An address that is not null is a link. -/
theorem link_eq (some : a ≠ 0) : link a = Option.some a := if_neg some

/-- The link forward of a node. -/
theorem node_next : (node h a).next = link (h.next a) := by rw [node]

/-- A node is read from its header. -/
theorem node_header : node h a = ⟨link (h.header a).last, link (h.header a).next,
    ((h.header a).length, (h.header a).free)⟩ := by
  rw [node, Heap.last_header, Heap.next_header, Heap.length_header, Heap.isFree_header]

/-- And from nothing else. -/
theorem node_congr (same : h'.header a = h.header a) : node h' a = node h a := by
  rw [node_header, node_header, same]

/-- The links of a list lead to all of it. -/
theorem Seg.reaches (seg : Seg (node h) p ((a, v) :: segs) n) : ∀ b ∈ keys segs, Reaches h a b := by
  induction segs generalizing p a v with
  | nil =>
    intro b mem
    cases mem
  | cons x segs ih =>
    intro b mem
    have step : link (h.next a) = some x.1 := by
      rw [← node_next, seg.1]
      rfl
    rcases List.mem_cons.mp mem with rfl | mem
    · exact .single step
    · exact .head step (ih seg.2 b mem)

/-! ### A segment in a chain -/

/-- The node of a segment. -/
theorem WellFormed.node (chain : WellFormed h (pre ++ (s, v) :: post)) :
    node h s = ⟨lastOr none pre, headOr post none, v⟩ := chain.linked.node

/-- Its link forward. -/
theorem WellFormed.next (chain : WellFormed h (pre ++ (s, v) :: post)) :
    link (h.next s) = headOr post none := by
  rw [← node_next, chain.node]

/-- The last one has none. -/
theorem WellFormed.next_nil (chain : WellFormed h (pre ++ [(s, v)])) : h.next s = 0 := by
  have next : link (h.next s) = none := chain.next
  rw [link] at next
  split at next
  · assumption
  · cases next

/-- The others lead to the next. -/
theorem WellFormed.next_cons (chain : WellFormed h (pre ++ (s, v) :: (y, w) :: post)) :
    h.next s = y := by
  have next : link (h.next s) = some y := chain.next
  rw [link] at next
  split at next
  · cases next
  · exact Option.some.inj next

/-- Its mark. -/
theorem WellFormed.isFree (chain : WellFormed h (pre ++ (s, v) :: post)) : h.isFree s = v.2 :=
  congrArg (fun n => n.val.2) chain.node

/-- Its length. -/
theorem WellFormed.length (chain : WellFormed h (pre ++ (s, v) :: post)) : h.length s = v.1 :=
  congrArg (fun n => n.val.1) chain.node

/-- The chain from the segment behind on. -/
theorem WellFormed.tail (chain : WellFormed h (pre ++ (s, v) :: (y, w) :: post)) :
    WellFormed h ((pre ++ [(s, v)]) ++ (y, w) :: post) := by
  rwa [List.append_assoc]

/-! ### A segment taken up -/

/-- What both merges write, up to what is behind the two segments. -/
structure Joined (h h' : Heap) (s y z : Addr) : Prop where
  start : h'.heapStart = h.heapStart
  last : h'.lastHeader = if h.lastHeader = y then s else h.lastHeader
  first : h'.header s = { h.header s with
    length := h.length s + h.length y + headerSize, next := z }
  behind : z ≠ 0 → Far s z → h'.header z = { h.header z with last := s }
  others : ∀ d, Far s d → Far y d → (z ≠ 0 → Far z d) → h'.header d = h.header d

/-- Headers of different segments are far. -/
theorem WellFormed.far (chain : WellFormed h segs) (ha : a ∈ keys segs) (hb : b ∈ keys segs)
    (ne : a ≠ b) : Far a b := by
  have symm : Std.Symm Far := ⟨fun _ _ far => far.symm⟩
  exact chain.apart.forall ha hb ne

/-- And from those behind. -/
theorem WellFormed.far_behind (chain : WellFormed h (pre ++ (s, v) :: post)) :
    ∀ a ∈ keys post, Far s a := by
  have apart := chain.apart
  rw [keys, List.map_append, List.pairwise_append] at apart
  exact (List.pairwise_cons.mp apart.2.1).1

/-- The last of a list is one of it. -/
theorem lastOr_mem (last : lastOr (some a) segs = some b) : b = a ∨ b ∈ keys segs := by
  induction segs generalizing a with
  | nil => exact .inl (Option.some.inj last).symm
  | cons x segs ih =>
    rcases ih last with rfl | mem
    · exact .inr List.mem_cons_self
    · exact .inr (List.mem_cons_of_mem _ mem)

/-- A join adds no segment. -/
theorem keys_joined (u : Addr × Bool) :
    (keys (pre ++ (s, u) :: post)).Sublist (keys (pre ++ (s, v) :: (y, w) :: post)) := by
  rw [keys, keys, List.map_append, List.map_append]
  exact List.Sublist.append_left (List.Sublist.cons_cons s (List.sublist_cons_self y _)) _

/-- The next segment is one behind. -/
theorem WellFormed.next_mem (chain : WellFormed h (pre ++ (s, v) :: post)) (some : h.next s ≠ 0) :
    h.next s ∈ keys post := by
  cases post with
  | nil => exact absurd chain.next_nil some
  | cons x post =>
    rw [chain.next_cons]
    exact List.mem_cons_self

/-- What both merges write is a chain again. -/
theorem WellFormed.joined (chain : WellFormed h (pre ++ (s, v) :: (y, w) :: post))
    (joined : Joined h h' s y (h.next y)) :
    WellFormed h' (pre ++ (s, v.1 + w.1 + headerSize, v.2) :: post) := by
  have nodup := chain.linked.nodup
  have hs : s ∈ keys (pre ++ (s, v) :: (y, w) :: post) := by simp
  have hy : y ∈ keys (pre ++ (s, v) :: (y, w) :: post) := by simp
  have hz (some : h.next y ≠ 0) : h.next y ∈ keys (pre ++ (s, v) :: (y, w) :: post) := by
    have mem := chain.tail.next_mem some
    simp [mem]
  have lengths : h.length s + h.length y + headerSize = v.1 + w.1 + headerSize := by
    rw [chain.length, chain.tail.length]
  have left : Merging.node h' s = ⟨(Merging.node h s).prev, link (h.next y),
      (v.1 + w.1 + headerSize, v.2)⟩ := by
    rw [node_header, joined.first, lengths, Heap.isFree_header, chain.isFree, node_header]
  -- the chain does not lead to the bytes that are not those of its headers
  let τ (d : Addr) : Node Addr (Addr × Bool) :=
    if d ∈ keys (pre ++ (s, v) :: (y, w) :: post) then Merging.node h' d else Merging.node h d
  have τ_mem {d : Addr} (mem : d ∈ keys (pre ++ (s, v) :: (y, w) :: post)) :
      τ d = Merging.node h' d := if_pos mem
  have sub := @keys_joined s y v w pre post (v.1 + w.1 + headerSize, v.2)
  have others (d : Addr) (one : d ≠ s) (two : d ≠ y) (three : h.next y ≠ 0 → d ≠ h.next y) :
      τ d = Merging.node h d := by
    by_cases mem : d ∈ keys (pre ++ (s, v) :: (y, w) :: post)
    · rw [τ_mem mem]
      apply node_congr
      exact joined.others d (chain.far hs mem one.symm) (chain.far hy mem two.symm) fun some =>
        chain.far (hz some) mem (three some).symm
    · exact if_neg mem
  have linked : Seg τ none (pre ++ (s, v.1 + w.1 + headerSize, v.2) :: post) none := by
    cases post with
    | nil =>
      apply chain.linked.unlinkLast nodup
      · rw [τ_mem hs, left, chain.tail.next_nil]
        rfl
      · exact fun d one two => others d one two fun some => absurd chain.tail.next_nil some
    | cons x post =>
      obtain ⟨z, u⟩ := x
      have next : h.next y = z := chain.tail.next_cons
      have some : z ≠ 0 := chain.nonzero z (by simp)
      apply chain.linked.unlink nodup
      · rw [τ_mem hs, left, next, link_eq some]
      · have far : Far s z := chain.far_behind z (by simp)
        have here := joined.behind (next ▸ some) (next ▸ far)
        have value : (h.length z, h.isFree z) = u := by
          rw [chain.tail.tail.length, chain.tail.tail.isFree]
        rw [next] at here
        rw [τ_mem (by simp), node_header, here, link_eq (chain.nonzero s hs), node_next, ← value]
        rfl
      · intro d one two three
        exact others d one two fun _ => next ▸ three
  refine ⟨?_, linked.frame fun d mem => (τ_mem (sub.subset mem)).symm, ?_, ?_,
    chain.apart.sublist sub⟩
  · rw [joined.start, ← chain.start, headOr_append, headOr_append]
    rfl
  · rw [joined.last]
    have last := chain.last
    rw [lastOr_append, lastOr_cons, lastOr_cons] at last
    rw [lastOr_append, lastOr_cons]
    cases post with
    | nil =>
      rw [if_pos (Option.some.inj last).symm]
      rfl
    | cons x post =>
      rw [lastOr_cons] at last ⊢
      rw [last, if_neg]
      rintro rfl
      have mem : h.lastHeader ∈ keys (x :: post) := by
        rcases lastOr_mem last with same | mem
        · exact same ▸ List.mem_cons_self
        · exact List.mem_cons_of_mem _ mem
      exact (chain.tail.far_behind _ mem).ne rfl
  · exact fun d mem => chain.nonzero d (sub.subset mem)

/-! ### Both merges -/

/-- Nothing is taken up. -/
theorem combineForward_quiet (quiet : h.next s = 0 ∨ h.isFree (h.next s) = false) :
    h.headerCombineForward s = h ∧ UserHeap.headerCombineForward h s = h := by
  rw [Heap.headerCombineForward, UserHeap.headerCombineForward]
  rcases quiet with none | used
  · rw [if_pos none, if_pos none]
    exact ⟨rfl, rfl⟩
  · rw [used, if_pos (show (!false) = true from rfl), if_pos (show (!false) = true from rfl),
      ite_self]
    exact ⟨rfl, rfl⟩

/-- Where nothing is taken up both are alike. -/
theorem alike_quiet (chain : WellFormed h (pre ++ (s, v) :: post))
    (quiet : h.next s = 0 ∨ h.isFree (h.next s) = false) : Alike h s post := by
  obtain ⟨kernel, user⟩ := combineForward_quiet quiet
  refine ⟨⟨_, by rwa [kernel], by rwa [user]⟩, fun a mem => ?_⟩
  rw [user]
  rw [keys, List.map_tail] at mem
  exact Seg.reaches (seg_append.mp chain.linked).2 a (List.mem_of_mem_tail mem)

/-- Where a free segment is, with one behind it or not. -/
structure Before (h : Heap) (s y : Addr) : Prop where
  next : h.next s = y
  nonzero : y ≠ 0
  free : h.isFree y = true
  far : Far s y
  away : h.next y ≠ 0 → Far (h.next y) s ∧ Far (h.next y) y

/-- What is known where a free segment is taken up. -/
theorem WellFormed.before (chain : WellFormed h (pre ++ (s, v) :: (y, k, true) :: post)) :
    Before h s y := by
  refine ⟨chain.next_cons, chain.nonzero y (by simp), chain.tail.isFree,
    chain.far_behind y List.mem_cons_self, fun some => ?_⟩
  have mem := chain.tail.next_mem some
  exact ⟨(chain.far_behind _ (List.mem_cons_of_mem _ mem)).symm, (chain.tail.far_behind _ mem).symm⟩

/-- The kernel's merge before a free segment. -/
theorem WellFormed.kernel (chain : WellFormed h (pre ++ (s, v) :: (y, k, true) :: post)) :
    WellFormed (h.headerCombineForward s) (pre ++ (s, v.1 + k + headerSize, v.2) :: post) := by
  obtain ⟨next, nonzero, free, far, away⟩ := chain.before
  have join := Heap.headerCombineForward_join next rfl nonzero free far away
  exact chain.joined ⟨join.start, join.last, join.first, join.behind,
    fun d one _ three => join.others d one three⟩

/-- Prism's merge before a last segment that is free. -/
theorem WellFormed.user (chain : WellFormed h (pre ++ [(s, v), (y, k, true)])) :
    WellFormed (UserHeap.headerCombineForward h s) (pre ++ [(s, v.1 + k + headerSize, v.2)]) := by
  obtain ⟨next, nonzero, free, far, away⟩ := chain.before
  have cut := UserHeap.headerCombineForward_cut far next nonzero free rfl away
  have none : h.next y = 0 := chain.tail.next_nil
  refine chain.joined ⟨cut.rest.1, cut.last, ?_, fun some => absurd none some, cut.far⟩
  rw [cut.header, none]

/-- Prism's merge before a free segment leads nowhere. -/
theorem WellFormed.cut_off {x : Addr × Addr × Bool}
    (chain : WellFormed h (pre ++ (s, v) :: (y, k, true) :: x :: post)) :
    ¬ Reaches (UserHeap.headerCombineForward h s) s x.1 := by
  obtain ⟨next, nonzero, free, far, away⟩ := chain.before
  have cut := UserHeap.headerCombineForward_cut far next nonzero free rfl away
  have none : link ((UserHeap.headerCombineForward h s).next s) = Option.none := by
    rw [← Heap.next_header, cut.header]
    rfl
  intro reaches
  rcases Relation.ReflTransGen.cases_head reaches with same | ⟨b, step, -⟩
  · exact absurd same (chain.far_behind x.1 (by simp)).ne
  · cases none.symm.trans step

/-- Both merges leave the same chain exactly when no segment lies behind the one they take up.
Prism clears the header of that segment first, and then reads from it where the chain goes on.
-/
theorem alike_iff (chain : WellFormed h (pre ++ (s, v) :: post)) :
    Alike h s post ↔ ∀ y n behind, post = (y, n, true) :: behind → behind = [] := by
  constructor
  · rintro ⟨-, reaches⟩ y n behind rfl
    cases behind with
    | nil => rfl
    | cons x behind => exact absurd (reaches x.1 List.mem_cons_self) chain.cut_off
  · intro last
    cases post with
    | nil => exact alike_quiet chain (.inl chain.next_nil)
    | cons x post =>
      obtain ⟨y, n, mark⟩ := x
      cases mark with
      | false =>
        apply alike_quiet chain
        rw [chain.next_cons]
        exact .inr chain.tail.isFree
      | true =>
        obtain rfl := last y n post rfl
        exact ⟨⟨_, chain.kernel, chain.user⟩, fun a mem => absurd mem List.not_mem_nil⟩

/-! ### The heap of the kernel -/

/-- The segments of a list that begins at `a`, each with its address. -/
def entries (a : Nat) : List Heap.Segment → List (Addr × Addr × Bool)
  | [] => []
  | t :: ts =>
    (BitVec.ofNat 64 a, BitVec.ofNat 64 t.length, t.free) :: entries (a + 32 + t.length) ts

variable {l m : Nat} {ts : List Heap.Segment}

/-- The places of the segments. -/
theorem keys_entries : keys (entries m ts) = (Heap.headers m ts).map (BitVec.ofNat 64) := by
  induction ts generalizing m with
  | nil => rfl
  | cons t ts ih =>
    rw [entries, Heap.headers, List.map_cons, ← ih]
    rfl

/-- The last of them. -/
theorem lastOr_entries (some : ts ≠ []) :
    lastOr p (entries m ts) = Option.some (BitVec.ofNat 64 (Heap.lastOf l m ts)) := by
  induction ts generalizing p l m with
  | nil => exact absurd rfl some
  | cons t ts ih =>
    cases ts with
    | nil => rfl
    | cons u ts =>
      exact ih (p := Option.some (BitVec.ofNat 64 m)) (l := m) (List.cons_ne_nil u ts)

/-- The links of the kernel's heap are those of a list. -/
theorem seg_entries (linked : Heap.Linked h.header 0 l m ts) (pos : 0 < m)
    (fits : Heap.fin m ts < 2 ^ 64) :
    Seg (node h) (link (BitVec.ofNat 64 l)) (entries m ts) none := by
  induction ts generalizing l m with
  | nil => trivial
  | cons t ts ih =>
    have room : m + 32 + t.length ≤ Heap.fin (m + 32 + t.length) ts := Heap.le_fin
    have fits' : Heap.fin (m + 32 + t.length) ts < 2 ^ 64 := fits
    have rest := ih linked.2 (by omega) fits
    rw [link_eq (Heap.ofNat_ne_zero pos (by omega))] at rest
    have next : link (BitVec.ofNat 64 (Heap.nextOf 0 (m + 32 + t.length) ts)) =
        headOr (entries (m + 32 + t.length) ts) none := by
      cases ts with
      | nil => rfl
      | cons u ts =>
        show link (BitVec.ofNat 64 (m + 32 + t.length)) = _
        exact link_eq (Heap.ofNat_ne_zero (by omega) (by omega))
    refine ⟨?_, rest⟩
    rw [node_header, linked.1, next]

/-- Its headers are far from each other. -/
theorem far_entries (fits : Heap.fin m ts ≤ 2 ^ 64) : (keys (entries m ts)).Pairwise Far := by
  induction ts generalizing m with
  | nil => exact List.Pairwise.nil
  | cons t ts ih =>
    refine List.pairwise_cons.mpr ⟨fun b mem => ?_, ih fits⟩
    rw [← keys, keys_entries] at mem
    obtain ⟨n, inside, rfl⟩ := List.mem_map.mp mem
    obtain ⟨low, high⟩ := Heap.headers_bounds inside
    have high' : n + 32 ≤ 2 ^ 64 := Nat.le_trans high fits
    exact Heap.far_ofNat (by omega) high'

/-- Every heap of the kernel is such a chain. -/
theorem Tiled.wellFormed (tiled : Heap.Tiled h ts) :
    WellFormed h (entries h.heapStart.toNat ts) := by
  obtain ⟨some, linked, ends, last, start, -⟩ := tiled
  have small := h.heapEnd.isLt
  refine ⟨?_, seg_entries linked start.1 (by omega), ?_, fun a mem => ?_, far_entries (by omega)⟩
  · cases ts with
    | nil => exact absurd rfl some
    | cons t ts => rw [entries, headOr_cons, BitVec.ofNat_toNat, BitVec.setWidth_eq]
  · rw [lastOr_entries some, last, BitVec.ofNat_toNat, BitVec.setWidth_eq]
  · rw [keys_entries] at mem
    obtain ⟨n, inside, rfl⟩ := List.mem_map.mp mem
    obtain ⟨low, high⟩ := Heap.headers_bounds inside
    exact Heap.ofNat_ne_zero (by omega) (by omega)

end

/-! ### Three segments -/

/-- A header written. -/
def writeHeader (h : Heap) (a : Addr) (d : Header) : Heap :=
  (((h.setLength a d.length).setNext a d.next).setLast a d.last).setFree a d.free

/-- A header that was written is read back. -/
theorem header_writeHeader (h : Heap) (a : Addr) (d : Header) :
    (writeHeader h a d).header a = d := by
  rw [writeHeader, Heap.header_setFree, Heap.header_setLast, Heap.header_setNext,
    Heap.header_setLength]

/-- And no other is changed. -/
theorem header_writeHeader_far {h : Heap} {a b : Addr} {d : Header} (far : Far a b) :
    (writeHeader h a d).header b = h.header b := by
  rw [writeHeader, Heap.header_setFree_far far, Heap.header_setLast_far far,
    Heap.header_setNext_far far, Heap.header_setLength_far far]

/-- Three segments of 32 bytes, of which the one in the middle is free. -/
def three : Heap :=
  let h : Heap := ⟨fun _ => 0, 0x1000, 0x10c0, 0x1080, true, ⟨fun _ _ => 0, 0, 0⟩⟩
  let h := writeHeader h 0x1000 ⟨0x20, 0x1040, 0, false⟩
  let h := writeHeader h 0x1040 ⟨0x20, 0x1080, 0x1000, true⟩
  writeHeader h 0x1080 ⟨0x20, 0, 0x1040, false⟩

/-- They are a chain. -/
theorem three_wellFormed :
    WellFormed three ([] ++ [(0x1000, 0x20, false), (0x1040, 0x20, true),
    (0x1080, 0x20, false)]) := by
  have far : Far 0x1080 0x1000 ∧ Far 0x1080 0x1040 ∧ Far 0x1040 0x1000 := by
    rw [Far, Far, Far]
    decide
  obtain ⟨one, two, between⟩ := far
  have first : three.header 0x1000 = ⟨0x20, 0x1040, 0, false⟩ := by
    rw [three, header_writeHeader_far one, header_writeHeader_far between, header_writeHeader]
  have second : three.header 0x1040 = ⟨0x20, 0x1080, 0x1000, true⟩ := by
    rw [three, header_writeHeader_far two, header_writeHeader]
  have third : three.header 0x1080 = ⟨0x20, 0, 0x1040, false⟩ := by
    rw [three, header_writeHeader]
  refine ⟨rfl, ⟨?_, ?_, ?_, trivial⟩, rfl, by simp, ?_⟩
  · rw [node_header, first]
    rfl
  · rw [node_header, second]
    rfl
  · rw [node_header, third]
    rfl
  · refine .cons (List.forall_mem_cons.mpr ⟨between.symm, ?_⟩)
      (.cons ?_ (List.pairwise_singleton _ _))
    · exact List.forall_mem_singleton.mpr one.symm
    · exact List.forall_mem_singleton.mpr two.symm

/-- The segment in the middle is taken up, and the last one is lost. -/
theorem not_alike :
    WellFormed three [(0x1000, 0x20, false), (0x1040, 0x20, true), (0x1080, 0x20, false)] ∧
    ¬ Alike three 0x1000 [(0x1040, 0x20, true), (0x1080, 0x20, false)] := by
  refine ⟨three_wellFormed, fun alike => ?_⟩
  exact three_wellFormed.cut_off (alike.reaches 0x1080 List.mem_cons_self)

/-- Two segments of 32 bytes, of which the second is free. -/
def two : Heap :=
  let h : Heap := ⟨fun _ => 0, 0x1000, 0x1080, 0x1040, true, ⟨fun _ _ => 0, 0, 0⟩⟩
  let h := writeHeader h 0x1000 ⟨0x20, 0x1040, 0, false⟩
  writeHeader h 0x1040 ⟨0x20, 0, 0x1000, true⟩

/-- They are a chain. -/
theorem two_wellFormed : WellFormed two ([] ++ [(0x1000, 0x20, false), (0x1040, 0x20, true)]) := by
  have far : Far 0x1040 0x1000 := by
    rw [Far]
    decide
  have first : two.header 0x1000 = ⟨0x20, 0x1040, 0, false⟩ := by
    rw [two, header_writeHeader_far far, header_writeHeader]
  have second : two.header 0x1040 = ⟨0x20, 0, 0x1000, true⟩ := by
    rw [two, header_writeHeader]
  refine ⟨rfl, ⟨?_, ?_, trivial⟩, rfl, by simp, ?_⟩
  · rw [node_header, first]
    rfl
  · rw [node_header, second]
    rfl
  · exact List.pairwise_pair.mpr far.symm

/-- A free segment that is the last is taken up by both alike, and one that is not is not. -/
theorem alike_iff_two_three : Alike two 0x1000 [(0x1040, 0x20, true)] ∧
    ¬ Alike three 0x1000 [(0x1040, 0x20, true), (0x1080, 0x20, false)] := by
  refine ⟨(alike_iff two_wellFormed).mpr ?_, fun alike => ?_⟩
  · rintro y n behind same
    exact (List.cons.inj same).2.symm
  · exact absurd ((alike_iff three_wellFormed).mp alike _ _ _ rfl) (List.cons_ne_nil _ _)

end Skylight.Merging

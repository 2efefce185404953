import Mathlib.Logic.Function.Basic
import Mathlib.Data.List.Nodup
import Mathlib.Data.List.Perm.Subperm

/-!
# Doubly linked segments in a store

A store assigns a node to every address; a node carries a value and two optional
links. `Seg σ p l n` says that the addresses of `l`, in order, form a doubly linked
segment of the store: the first node's back link is `p`, the last node's forward link
is `n`, and every node carries the value `l` pairs it with. A whole list is a segment
between two absent links.

Edits of such a list are local. `seg_append` cuts a segment at any seam, `Seg.frame`
carries a piece across an edit that leaves its nodes alone, and the edited nodes are
put back by the constructor equations. `Seg.nodup` is what makes the pieces disjoint:
a segment that ends never visits an address twice.
-/

namespace Skylight

variable {A α : Type*}

/-- A node of a doubly linked list. -/
structure Node (A α : Type*) where
  prev : Option A
  next : Option A
  val : α
  deriving DecidableEq, Repr

namespace Chain

/-- The address a list starts at, or `n` when it is empty. -/
def headOr : List (A × α) → Option A → Option A
  | [], n => n
  | (a, _) :: _, _ => some a

/-- The address a list ends at, or `p` when it is empty. -/
def lastOr : Option A → List (A × α) → Option A
  | p, [] => p
  | _, (a, _) :: l => lastOr (some a) l

@[simp] theorem headOr_nil (n : Option A) : headOr ([] : List (A × α)) n = n := rfl

@[simp] theorem headOr_cons (x : A × α) (l : List (A × α)) (n : Option A) :
    headOr (x :: l) n = some x.1 := rfl

@[simp] theorem lastOr_nil (p : Option A) : lastOr p ([] : List (A × α)) = p := rfl

@[simp] theorem lastOr_cons (p : Option A) (x : A × α) (l : List (A × α)) :
    lastOr p (x :: l) = lastOr (some x.1) l := rfl

@[simp] theorem headOr_append (l₁ l₂ : List (A × α)) (n : Option A) :
    headOr (l₁ ++ l₂) n = headOr l₁ (headOr l₂ n) := by
  cases l₁ <;> rfl

@[simp] theorem lastOr_append (p : Option A) (l₁ l₂ : List (A × α)) :
    lastOr p (l₁ ++ l₂) = lastOr (lastOr p l₁) l₂ := by
  induction l₁ generalizing p with
  | nil => rfl
  | cons x l₁ ih => exact ih (some x.1)

/-- The addresses of a list of addressed values. -/
abbrev keys (l : List (A × α)) : List A := l.map Prod.fst

/-- A doubly linked segment of the store `σ`, entered from `p` and left to `n`. -/
def Seg (σ : A → Node A α) : Option A → List (A × α) → Option A → Prop
  | _, [], _ => True
  | p, (a, v) :: l, n => σ a = ⟨p, headOr l n, v⟩ ∧ Seg σ (some a) l n

@[simp] theorem seg_nil {σ : A → Node A α} {p n : Option A} : Seg σ p [] n := trivial

@[simp] theorem seg_cons {σ : A → Node A α} {p n : Option A} {a : A} {v : α}
    {l : List (A × α)} :
    Seg σ p ((a, v) :: l) n ↔ σ a = ⟨p, headOr l n, v⟩ ∧ Seg σ (some a) l n := Iff.rfl

/-- A segment of a concatenation is a segment up to the seam and one from it. -/
theorem seg_append {σ : A → Node A α} {p n : Option A} {l₁ l₂ : List (A × α)} :
    Seg σ p (l₁ ++ l₂) n ↔ Seg σ p l₁ (headOr l₂ n) ∧ Seg σ (lastOr p l₁) l₂ n := by
  induction l₁ generalizing p with
  | nil => simp
  | cons x l₁ ih =>
    obtain ⟨a, v⟩ := x
    simp only [List.cons_append, seg_cons, headOr_append, ih, lastOr_cons, and_assoc]

/-- A segment survives every change of the store outside its own addresses. -/
theorem Seg.frame {σ τ : A → Node A α} {p n : Option A} {l : List (A × α)}
    (h : Seg σ p l n) (same : ∀ a ∈ keys l, τ a = σ a) : Seg τ p l n := by
  induction l generalizing p with
  | nil => trivial
  | cons x l ih =>
    obtain ⟨a, v⟩ := x
    refine ⟨?_, ih h.2 fun b hb => same b (List.mem_cons_of_mem _ hb)⟩
    rw [same a (List.mem_cons_self ..)]
    exact h.1

/-- The store determines a whole list from where it starts. -/
theorem Seg.determined {σ : A → Node A α} {p q : Option A} {l m : List (A × α)}
    (hl : Seg σ p l none) (hm : Seg σ q m none) (start : headOr l none = headOr m none) :
    l = m := by
  induction l generalizing p q m with
  | nil =>
    cases m with
    | nil => rfl
    | cons y m => simp at start
  | cons x l ih =>
    obtain ⟨a, v⟩ := x
    cases m with
    | nil => simp at start
    | cons y m =>
      obtain ⟨b, w⟩ := y
      obtain rfl : a = b := by simpa using start
      have heq := hl.1.symm.trans hm.1
      simp only [Node.mk.injEq] at heq
      rw [heq.2.2, ih hl.2 hm.2 heq.2.1]

/-- A list that ends visits no address twice: the tail after a repeated address would be
its own proper tail. -/
theorem Seg.nodup {σ : A → Node A α} {p : Option A} {l : List (A × α)}
    (h : Seg σ p l none) : (keys l).Nodup := by
  induction l generalizing p with
  | nil => exact List.nodup_nil
  | cons x l ih =>
    obtain ⟨a, v⟩ := x
    refine List.nodup_cons.mpr ⟨fun mem => ?_, ih h.2⟩
    obtain ⟨⟨b, w⟩, hb, rfl⟩ := List.mem_map.mp mem
    obtain ⟨l₁, l₂, rfl⟩ := List.append_of_mem hb
    have tail : Seg σ (lastOr (some b) l₁) ((b, w) :: l₂) none := (seg_append.mp h.2).2
    have same := Seg.determined h tail rfl
    have := congrArg List.length same
    simp only [List.length_cons, List.length_append] at this
    omega

/-- The node at a known position of a segment. -/
theorem Seg.node {σ : A → Node A α} {p n : Option A} {l₁ l₂ : List (A × α)} {a : A} {v : α}
    (h : Seg σ p (l₁ ++ (a, v) :: l₂) n) : σ a = ⟨lastOr p l₁, headOr l₂ n, v⟩ :=
  (seg_append.mp h).2.1

/-- In a list of at least two nodes every node has a neighbour. -/
theorem Seg.linked {σ : A → Node A α} {l : List (A × α)} (h : Seg σ none l none)
    (two : 2 ≤ l.length) {a : A} (mem : a ∈ keys l) :
    (σ a).prev ≠ none ∨ (σ a).next ≠ none := by
  obtain ⟨⟨b, v⟩, hb, rfl⟩ := List.mem_map.mp mem
  obtain ⟨l₁, l₂, rfl⟩ := List.append_of_mem hb
  rw [h.node]
  rcases List.eq_nil_or_concat l₁ with rfl | ⟨k, y, rfl⟩
  · cases l₂ with
    | nil => simp at two
    | cons z l₂ => right; simp
  · left; simp

/-! ## The edits -/

/-- Writing the value of one node writes it in the list. -/
theorem Seg.set {σ τ : A → Node A α} {p n : Option A} {l₁ l₂ : List (A × α)} {a : A} {v w : α}
    (h : Seg σ p (l₁ ++ (a, v) :: l₂) n) (nd : (keys (l₁ ++ (a, v) :: l₂)).Nodup)
    (here : τ a = { σ a with val := w }) (rest : ∀ c, c ≠ a → τ c = σ c) :
    Seg τ p (l₁ ++ (a, w) :: l₂) n := by
  obtain ⟨h₁, ha, h₂⟩ := seg_append.mp h
  simp only [List.map_append, List.map_cons, List.nodup_append, List.nodup_cons] at nd
  refine seg_append.mpr ⟨h₁.frame fun c hc => rest c ?_, ?_, h₂.frame fun c hc => rest c ?_⟩
  · exact nd.2.2 c hc a (List.mem_cons_self ..)
  · rw [here, ha]
  · rintro rfl
    exact nd.2.1.1 hc

/-- A fresh node goes in behind `a`. -/
theorem Seg.insert {σ τ : A → Node A α} {p n : Option A} {l₁ l₂ : List (A × α)} {a b : A}
    {v v' w : α} (h : Seg σ p (l₁ ++ (a, v) :: l₂) n)
    (nd : (keys (l₁ ++ (a, v) :: l₂)).Nodup) (fresh : b ∉ keys (l₁ ++ (a, v) :: l₂))
    (left : τ a = ⟨(σ a).prev, some b, v'⟩) (here : τ b = ⟨some a, headOr l₂ n, w⟩)
    (right : ∀ c, headOr l₂ none = some c → τ c = { σ c with prev := some b })
    (rest : ∀ c, c ≠ a → c ≠ b → headOr l₂ none ≠ some c → τ c = σ c) :
    Seg τ p (l₁ ++ (a, v') :: (b, w) :: l₂) n := by
  obtain ⟨h₁, ha, h₂⟩ := seg_append.mp h
  simp only [List.map_append, List.map_cons, List.nodup_append, List.nodup_cons, List.mem_append,
    List.mem_cons, not_or] at nd fresh
  obtain ⟨-, ⟨haL₂, ndL₂⟩, sep⟩ := nd
  refine seg_append.mpr ⟨h₁.frame fun c hc => rest c ?_ ?_ ?_, ?_, here, ?_⟩
  · exact sep c hc a (Or.inl rfl)
  · rintro rfl
    exact fresh.1 hc
  · intro hd
    cases l₂ with
    | nil => simp at hd
    | cons y l₂ =>
      obtain rfl : y.1 = c := by simpa using hd
      exact sep _ hc _ (Or.inr (by simp)) rfl
  · rw [left, ha]
    rfl
  · cases l₂ with
    | nil => trivial
    | cons y l₂ =>
      obtain ⟨c, u⟩ := y
      simp only [List.map_cons, List.nodup_cons, List.mem_cons, not_or] at haL₂ ndL₂ fresh
      refine ⟨by rw [right c rfl, h₂.1], h₂.2.frame fun d hd => rest d ?_ ?_ ?_⟩
      · rintro rfl
        exact haL₂.2 hd
      · rintro rfl
        exact fresh.2.2.2 hd
      · intro e
        obtain rfl : c = d := by simpa using e
        exact ndL₂.1 hd

/-- The node between two others goes out; its neighbours may get new values. -/
theorem Seg.unlink {σ τ : A → Node A α} {p n : Option A} {l₁ l₂ : List (A × α)} {a b c : A}
    {u v w u' w' : α} (h : Seg σ p (l₁ ++ (a, u) :: (b, v) :: (c, w) :: l₂) n)
    (nd : (keys (l₁ ++ (a, u) :: (b, v) :: (c, w) :: l₂)).Nodup)
    (left : τ a = ⟨(σ a).prev, some c, u'⟩) (right : τ c = ⟨some a, (σ c).next, w'⟩)
    (rest : ∀ d, d ≠ a → d ≠ b → d ≠ c → τ d = σ d) :
    Seg τ p (l₁ ++ (a, u') :: (c, w') :: l₂) n := by
  obtain ⟨h₁, ha, -, hc, h₂⟩ := seg_append.mp h
  simp only [List.map_append, List.map_cons, List.nodup_append, List.nodup_cons,
    List.mem_cons, not_or] at nd
  obtain ⟨-, ⟨⟨hab, hac, haL⟩, ⟨hbc, hbL⟩, hcL, -⟩, sep⟩ := nd
  refine seg_append.mpr ⟨h₁.frame fun d hd => rest d ?_ ?_ ?_, ?_, ?_,
    h₂.frame fun d hd => rest d ?_ ?_ ?_⟩
  · exact sep d hd a (Or.inl rfl)
  · exact sep d hd b (Or.inr (Or.inl rfl))
  · exact sep d hd c (Or.inr (Or.inr (Or.inl rfl)))
  · rw [left, ha]
    rfl
  · rw [right, hc]
  · rintro rfl
    exact haL hd
  · rintro rfl
    exact hbL hd
  · rintro rfl
    exact hcL hd

/-- The last node goes out. -/
theorem Seg.unlinkLast {σ τ : A → Node A α} {p n : Option A} {l₁ : List (A × α)} {a b : A}
    {u v u' : α} (h : Seg σ p (l₁ ++ [(a, u), (b, v)]) n)
    (nd : (keys (l₁ ++ [(a, u), (b, v)])).Nodup) (left : τ a = ⟨(σ a).prev, n, u'⟩)
    (rest : ∀ d, d ≠ a → d ≠ b → τ d = σ d) : Seg τ p (l₁ ++ [(a, u')]) n := by
  obtain ⟨h₁, ha, -⟩ := seg_append.mp h
  simp only [List.map_append, List.map_cons, List.map_nil, List.nodup_append] at nd
  refine seg_append.mpr ⟨h₁.frame fun d hd => rest d ?_ ?_, ?_, trivial⟩
  · exact nd.2.2 d hd a (by simp)
  · exact nd.2.2 d hd b (by simp)
  · rw [left, ha]
    rfl

end Chain

/-- A duplicate-free list of naturals below `n` has at most `n` elements. -/
theorem length_le_of_nodup_of_lt {l : List Nat} {n : Nat} (hd : l.Nodup)
    (hlt : ∀ a ∈ l, a < n) : l.length ≤ n := by
  have sub : l ⊆ List.range n := fun a ha => List.mem_range.mpr (hlt a ha)
  simpa using (hd.subperm sub).length_le

end Skylight

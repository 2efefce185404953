import Mathlib.Data.Set.Basic
import Mathlib.Data.Set.Lattice
import Mathlib.Data.List.Perm.Basic
import Mathlib.Order.CompletePartialOrder

/-!
# Ledgers of disjoint holdings

An allocator hands out sets of cells and takes some of them back. `Ledger avail free held`
is what a sound one keeps: every free cell is available, every holding is made of
available cells that are not free, and no two holdings meet. Taking a free set and giving
a holding back keep it; nothing here depends on what a cell is or how the free cells are
found.

`take` and `give` are the two steps, `empty` is the beginning, and `perm` lets holdings be listed in
any order. That an allocator answers when cells are free is not a matter of the ledger: it is proved
where the free cells are found.
-/

namespace Skylight

variable {α : Type*}

/-- The holdings are disjoint sets of available cells that are not free. -/
structure Ledger (avail free : Set α) (held : List (Set α)) : Prop where
  free_sub : free ⊆ avail
  held_sub : ∀ b ∈ held, b ⊆ avail \ free
  disjoint : held.Pairwise Disjoint

namespace Ledger

variable {avail free free' : Set α} {held held' : List (Set α)} {b : Set α}

/-- The ledger of an allocator that has handed out nothing. -/
theorem empty (h : free ⊆ avail) : Ledger avail free [] := ⟨h, by simp, List.Pairwise.nil⟩

/-- A free set is handed out; it is free no more. -/
theorem take (h : Ledger avail free held) (hb : b ⊆ free) (hf : free' ⊆ free \ b) :
    Ledger avail free' (b :: held) := by
  refine ⟨fun x hx => h.free_sub (hf hx).1, ?_, List.pairwise_cons.mpr ⟨?_, h.disjoint⟩⟩
  · intro c hc x hx
    rcases List.mem_cons.mp hc with rfl | hc
    · exact ⟨h.free_sub (hb hx), fun hfx => (hf hfx).2 hx⟩
    · have := h.held_sub c hc hx
      exact ⟨this.1, fun hfx => this.2 (hf hfx).1⟩
  · intro c hc
    exact Set.disjoint_left.mpr fun x hxb hxc => (h.held_sub c hc hxc).2 (hb hxb)

/-- A holding is given back; its cells may be free again, and no others are. -/
theorem give (h : Ledger avail free (b :: held)) (hf : free' ⊆ free ∪ b) :
    Ledger avail free' held := by
  have apart := (List.pairwise_cons.mp h.disjoint)
  refine ⟨?_, ?_, apart.2⟩
  · intro x hx
    rcases hf hx with hx | hx
    · exact h.free_sub hx
    · exact (h.held_sub b (by simp) hx).1
  · intro c hc x hx
    have := h.held_sub c (List.mem_cons_of_mem _ hc) hx
    refine ⟨this.1, fun hfx => ?_⟩
    rcases hf hfx with hfx | hxb
    · exact this.2 hfx
    · exact Set.disjoint_left.mp (apart.1 c hc) hxb hx

/-- The order of the holdings does not matter. -/
theorem perm (h : Ledger avail free held) (p : held'.Perm held) : Ledger avail free held' :=
  ⟨h.free_sub, fun b hb => h.held_sub b (p.mem_iff.mp hb),
    (p.pairwise_iff fun hab => hab.symm).mpr h.disjoint⟩

end Ledger

end Skylight

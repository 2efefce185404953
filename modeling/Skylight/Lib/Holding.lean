import Mathlib.Data.Set.Basic

/-!
# Things with one holder

Holders get hold of things and let go of them, and some things are reserved. `Sound` is what
should hold all along; a step in which one holder gets things that nobody else has, and in which
things that nobody has become reserved, keeps it.

`Sound.step` is that rule, and the only one: a run is its induction. Giving back needs none, since a
holder that has less, or a thing that is no longer reserved, cannot break what was sound. Nothing is
asked of the number of holders or things.
-/

namespace Skylight.Holding

variable {H T : Type*}

/-- No thing has two holders, and the reserved ones have none. -/
structure Sound (held : H → T → Prop) (reserved : Set T) : Prop where
  sole : ∀ c d t, held c t → held d t → c = d
  free : ∀ t ∈ reserved, ∀ c, ¬ held c t

/-- `c` gets things of `new` at most, and the others get nothing. -/
structure Gains (held held' : H → T → Prop) (c : H) (new : Set T) : Prop where
  own : ∀ t, held' c t → held c t ∨ t ∈ new
  others : ∀ d t, d ≠ c → held' d t → held d t

variable {held held' : H → T → Prop} {reserved reserved' : Set T} {c : H} {new : Set T}

/-- The step rule: one holder gets things that nobody else has and that do not become reserved, and
what becomes reserved was nobody's. Losses need no condition. The cases are whether the holder is
the one who gets. -/
theorem Sound.step (h : Sound held reserved) (gains : Gains held held' c new)
    (alone : ∀ t ∈ new, ∀ d, d ≠ c → ¬ held d t) (unreserved : ∀ t ∈ new, t ∉ reserved')
    (more : ∀ t ∈ reserved', t ∈ reserved ∨ ∀ d, ¬ held d t) : Sound held' reserved' where
  sole d e t hd he := by
    by_cases d_c : d = c
    · by_cases e_c : e = c
      · rw [d_c, e_c]
      · have old := gains.others e t e_c he
        rcases gains.own t (d_c ▸ hd) with own | mem
        · exact h.sole d e t (d_c ▸ own) old
        · exact absurd old (alone t mem e e_c)
    · have old := gains.others d t d_c hd
      by_cases e_c : e = c
      · rcases gains.own t (e_c ▸ he) with own | mem
        · exact h.sole d e t old (e_c ▸ own)
        · exact absurd old (alone t mem d d_c)
      · exact h.sole d e t old (gains.others e t e_c he)
  free t mem d hd := by
    have none : ∀ d, ¬ held d t := (more t mem).elim (h.free t) id
    by_cases d_c : d = c
    · rcases gains.own t (d_c ▸ hd) with own | fresh
      · exact none c own
      · exact unreserved t fresh mem
    · exact none d (gains.others d t d_c hd)

end Skylight.Holding

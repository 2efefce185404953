import Skylight.Boot.Limine

/-!
# Names compared

`strcmp` ends where its first argument does: a string that goes on behind the other counts as equal
when it is the second one. So `get_boot_module` takes a module whose name goes on behind the one
that is asked for.

`getBootModule_iff` has both parts: `strcmp` is a comparison of two strings just when neither
goes on behind the other, and the module of a name is found, first of its name, just when every
module whose name goes on behind it comes later. Names are strings of seven bits without NUL.
-/

namespace Skylight.Strings

/-- The characters of a string in seven bits. -/
def Ascii (s : List (BitVec 8)) : Prop := ∀ c ∈ s, 0 < c.toNat ∧ c.toNat < 128

/-- `strcmp` on two strings, in both orders: no byte behind a NUL is read, and the signs are those
of the lexicographic order. -/
def Compares (s t : List (BitVec 8)) : Prop :=
  ∃ a b, strcmp s t = some a ∧ strcmp t s = some b ∧ (a = 0 ↔ s = t) ∧ (a < 0 ↔ s < t) ∧
    (0 < a ↔ t < s) ∧ b.sign = -a.sign

section
variable {s t p r : List (BitVec 8)} {a b c : BitVec 8}

/-- The first character of a string. -/
theorem Ascii.cons (h : Ascii (c :: s)) : 0 < c.toNat ∧ c.toNat < 128 := h c (List.mem_cons_self ..)

/-- The others. -/
theorem Ascii.tail (h : Ascii (c :: s)) : Ascii s := fun d mem => h d (List.mem_cons_of_mem _ mem)

/-- A character is not negative. -/
theorem Ascii.toInt (h : 0 < c.toNat ∧ c.toNat < 128) : c.toInt = c.toNat := by
  rw [BitVec.toInt_eq_toNat_cond]
  omega

/-- And not the end. -/
theorem Ascii.ne_zero (h : 0 < c.toNat ∧ c.toNat < 128) : c ≠ 0 := by
  rintro rfl
  exact absurd h.1 (by decide)

/-- Only the end of a string reads as NUL. -/
theorem Ascii.peek (h : Ascii s) : peek s = 0 ↔ s = [] := by
  cases s with
  | nil => exact iff_of_true rfl rfl
  | cons c s => exact iff_of_false (Ascii.ne_zero h.cons) (List.cons_ne_nil c s)

/-! ### The three ways two strings can go -/

/-- Equal characters are passed; the loop ends in front of the second NUL. -/
theorem strcmp_same (h : Ascii t) : strcmp (c :: s) (c :: t) =
    if t = [] then some (Strings.peek s).toInt else strcmp s t := by
  rw [strcmp, if_neg (by simp)]
  simp only [advance, Option.bind_eq_bind, Option.bind_some, h.peek]
  rfl

/-- The first string ends before they differ. -/
theorem strcmp_append (h : Ascii (s ++ r)) : strcmp s (s ++ r) = some 0 := by
  induction s with
  | nil => rfl
  | cons c s ih =>
    rw [List.cons_append] at h ⊢
    rw [strcmp_same h.tail]
    split
    · next ends =>
      rw [(List.append_eq_nil_iff.mp ends).1]
      rfl
    · exact ih h.tail

/-- The second one does. -/
theorem strcmp_longer (h : Ascii (t ++ c :: r)) : strcmp (t ++ c :: r) t = some c.toInt := by
  induction t with
  | nil =>
    rw [List.nil_append] at h
    have differ : c ≠ Strings.peek [] := Ascii.ne_zero h.cons
    rw [List.nil_append, strcmp, if_pos differ]
    simp
  | cons d t ih =>
    rw [List.cons_append] at h ⊢
    rw [strcmp_same fun e mem => h.tail e (List.mem_append_left _ mem)]
    split
    · next ends =>
      rw [ends]
      rfl
    · exact ih h.tail

/-- They differ before either ends. -/
theorem strcmp_differ (h : Ascii (p ++ b :: t)) (ne : a ≠ b) :
    strcmp (p ++ a :: s) (p ++ b :: t) = some (a.toInt - b.toInt) := by
  induction p with
  | nil =>
    rw [List.nil_append, List.nil_append, strcmp]
    exact if_pos ne
  | cons d p ih =>
    rw [List.cons_append] at h ⊢
    rw [List.cons_append, strcmp_same h.tail, if_neg (by simp)]
    exact ih h.tail

/-- There is no fourth way. -/
theorem three_ways (s t : List (BitVec 8)) : (∃ r, t = s ++ r) ∨ (∃ c r, s = t ++ c :: r) ∨
    ∃ p a b s' t', s = p ++ a :: s' ∧ t = p ++ b :: t' ∧ a ≠ b := by
  induction s generalizing t with
  | nil => exact Or.inl ⟨t, rfl⟩
  | cons c s ih =>
    cases t with
    | nil => exact Or.inr (Or.inl ⟨c, s, rfl⟩)
    | cons d t =>
      by_cases same : c = d
      · subst same
        rcases ih t with ⟨r, rfl⟩ | ⟨e, r, rfl⟩ | ⟨p, a, b, s', t', rfl, rfl, ne⟩
        · exact Or.inl ⟨r, rfl⟩
        · exact Or.inr (Or.inl ⟨e, r, rfl⟩)
        · exact Or.inr (Or.inr ⟨c :: p, a, b, s', t', rfl, rfl, ne⟩)
      · exact Or.inr (Or.inr ⟨[], c, d, s, t, rfl, rfl, same⟩)

/-- The first difference decides the order. -/
theorem lt_differ (ne : a ≠ b) : p ++ a :: s < p ++ b :: t ↔ a < b := by
  induction p with
  | nil =>
    rw [List.nil_append, List.nil_append, List.cons_lt_cons_iff]
    exact ⟨fun h => h.resolve_right fun same => ne same.1, Or.inl⟩
  | cons d p ih =>
    rw [List.cons_append, List.cons_append, List.cons_lt_cons_iff, ih]
    exact ⟨fun h => (h.resolve_left (BitVec.lt_irrefl d)).2, fun h => Or.inr ⟨rfl, h⟩⟩

/-- Strings that differ do not begin with each other. -/
theorem not_prefix_differ (ne : a ≠ b) : ¬ p ++ a :: s <+: p ++ b :: t := by
  rw [List.prefix_append_right_inj, List.cons_prefix_cons]
  exact fun h => ne h.1

/-- A result of zero says no more than that the second string begins with the first. -/
theorem strcmp_zero_iff (hs : Ascii s) (ht : Ascii t) :
    ∃ x, strcmp s t = some x ∧ (x = 0 ↔ s <+: t) := by
  rcases three_ways s t with ⟨r, rfl⟩ | ⟨c, r, rfl⟩ | ⟨p, a, b, s, t, rfl, rfl, ne⟩
  · exact ⟨0, strcmp_append ht, iff_of_true rfl (List.prefix_append s r)⟩
  · have hc := hs c (by simp)
    refine ⟨_, strcmp_longer hs, iff_of_false ?_ fun pre => ?_⟩
    · rw [Ascii.toInt hc]
      omega
    · have le := pre.length_le
      rw [List.length_append, List.length_cons] at le
      omega
  · have ha := hs a (by simp)
    have hb := ht b (by simp)
    have ne' : a.toNat ≠ b.toNat := fun same => ne (BitVec.eq_of_toNat_eq same)
    refine ⟨_, strcmp_differ ht ne, iff_of_false ?_ (not_prefix_differ ne)⟩
    rw [Ascii.toInt ha, Ascii.toInt hb]
    omega

/-- `strcmp` compares two strings, if neither goes on behind the other. -/
theorem compares_iff (hs : Ascii s) (ht : Ascii t) :
    Compares s t ↔ (s <+: t ∨ t <+: s → s = t) := by
  rcases three_ways s t with ⟨r, rfl⟩ | ⟨c, r, rfl⟩ | ⟨p, a, b, s, t, rfl, rfl, ne⟩
  · -- the first one is a prefix
    constructor
    · rintro ⟨x, y, run, -, equal, -⟩ -
      rw [strcmp_append ht] at run
      exact equal.mp (Option.some.inj run).symm
    · intro same
      have equal := same (Or.inl (List.prefix_append s r))
      obtain rfl : r = [] := by simpa using equal
      rw [List.append_nil] at ht ⊢
      have run := strcmp_append (s := s) (r := []) (by simpa using hs)
      rw [List.append_nil] at run
      exact ⟨0, 0, run, run, iff_of_true rfl rfl, iff_of_false (by decide) (List.lt_irrefl s),
        iff_of_false (by decide) (List.lt_irrefl s), rfl⟩
  · -- the second one is a proper prefix
    constructor
    · rintro ⟨x, y, run, run', equal, -, -, sign⟩ -
      rw [strcmp_append hs] at run'
      rw [← Option.some.inj run', Int.sign_zero, eq_comm, Int.neg_eq_zero,
        Int.sign_eq_zero_iff_zero]
        at sign
      exact equal.mp sign
    · intro same
      have equal := same (Or.inr (List.prefix_append t (c :: r)))
      simp at equal
  · refine iff_of_true ?_ fun pre => ?_
    · have ha := hs a (by simp)
      have hb := ht b (by simp)
      have ne' : a.toNat ≠ b.toNat := fun same => ne (BitVec.eq_of_toNat_eq same)
      refine ⟨_, _, strcmp_differ ht ne, strcmp_differ hs ne.symm, ?_⟩
      rw [lt_differ ne, lt_differ ne.symm, Ascii.toInt ha, Ascii.toInt hb, BitVec.lt_def,
        BitVec.lt_def]
      have other : ¬ p ++ a :: s = p ++ b :: t := fun same =>
        ne (List.cons.inj (List.append_cancel_left same)).1
      refine ⟨iff_of_false (by omega) other, by omega, by omega, ?_⟩
      rw [← Int.sign_neg]
      congr 1
      omega
    · rcases pre with pre | pre
      · exact absurd pre (not_prefix_differ ne)
      · exact absurd pre (not_prefix_differ ne.symm)

end

end Skylight.Strings

namespace Skylight.Limine

open Strings

section
variable {strings : Nat → List (BitVec 8)} {modules : List BootModule} {name : List (BitVec 8)}

/-- `get_boot_module` answers the first module whose name begins with the one asked for. -/
theorem getBootModuleLoop_eq (hn : Ascii name) (hm : ∀ m ∈ modules, Ascii (strings m.name))
    (i : Nat) :
    getBootModuleLoop strings name modules i =
      some ((modules.findIdx? fun m => name <+: strings m.name).map (i + ·)) := by
  induction modules generalizing i with
  | nil => rfl
  | cons m ms ih =>
    obtain ⟨x, run, zero⟩ := strcmp_zero_iff hn (hm m (List.mem_cons_self ..))
    rw [getBootModuleLoop, run, Option.bind_eq_bind, Option.bind_some, List.findIdx?_cons]
    by_cases pre : name <+: strings m.name
    · rw [if_pos (zero.mpr pre), if_pos (decide_eq_true pre)]
      rfl
    · rw [if_neg (mt zero.mp pre), if_neg (by simpa using pre),
        ih fun n mem => hm n (List.mem_cons_of_mem _ mem), Option.map_map]
      congr 2
      funext k
      exact (Nat.add_right_comm i 1 k).trans (Nat.add_assoc i k 1)

/-- Two searches agree if what only the first one takes comes behind what both take. -/
theorem findIdx?_eq_iff {α : Type} {l : List α} {p q : α → Bool} (sub : ∀ x, q x → p x) :
    l.findIdx? p = l.findIdx? q ↔
      ∀ (k : Nat) x, l[k]? = some x → p x → ¬ q x → ∃ j, j < k ∧ ∃ y, l[j]? = some y ∧ q y := by
  -- Only an element that `p` alone takes can come first; then the first of `q` has to be before it.
  induction l with
  | nil => simp
  | cons a l ih =>
    rw [List.findIdx?_cons, List.findIdx?_cons]
    by_cases hq : q a
    · rw [if_pos hq, if_pos (sub a hq)]
      refine iff_of_true rfl fun k x at_k _ nq => ?_
      cases k with
      | zero => exact absurd (Option.some.inj at_k ▸ hq) nq
      | succ k => exact ⟨0, k.succ_pos, a, rfl, hq⟩
    · rw [if_neg hq]
      by_cases hp : p a
      · rw [if_pos hp]
        refine iff_of_false (by simp [eq_comm]) fun h => ?_
        obtain ⟨j, lt, -⟩ := h 0 a rfl hp hq
        exact absurd lt j.not_lt_zero
      · rw [if_neg hp, (Option.map_injective fun _ _ => Nat.succ.inj).eq_iff, ih]
        constructor
        · intro h k x at_k px nq
          cases k with
          | zero => exact absurd (Option.some.inj at_k ▸ px) hp
          | succ k =>
            obtain ⟨j, lt, y, at_j, qy⟩ := h k x at_k px nq
            exact ⟨j + 1, Nat.succ_lt_succ lt, y, at_j, qy⟩
        · intro h k x at_k px nq
          obtain ⟨j, lt, y, at_j, qy⟩ := h (k + 1) x at_k px nq
          cases j with
          | zero => exact absurd (Option.some.inj at_j ▸ qy) hq
          | succ j => exact ⟨j, Nat.lt_of_succ_lt_succ lt, y, at_j, qy⟩

/-- It answers the first module of that name if every module whose name goes on behind it comes
behind one of that name. -/
theorem getBootModule_first_iff (hn : Ascii name) (hm : ∀ m ∈ modules, Ascii (strings m.name))
    (short : name.length ≤ 128) :
    getBootModule strings modules name =
        some (modules.findIdx? fun m => strings m.name = name) ↔
      ∀ (k : Nat) m, modules[k]? = some m → name <+: strings m.name → strings m.name ≠ name →
        ∃ j, j < k ∧ ∃ m', modules[j]? = some m' ∧ strings m'.name = name := by
  have named : ∀ m : BootModule, decide (strings m.name = name) = true →
      decide (name <+: strings m.name) = true := fun m same =>
    decide_eq_true (of_decide_eq_true same ▸ List.prefix_rfl)
  rw [getBootModule, if_neg (by omega), getBootModuleLoop_eq hn hm, Option.some_inj]
  simp only [Nat.zero_add, Option.map_id']
  rw [findIdx?_eq_iff named]
  simp only [decide_eq_true_eq, ne_eq]

/-- The comparison, and the look-up that rests on it: `strcmp` compares two strings just when
neither goes on behind the other, and `get_boot_module` answers the first module of a name just
when those whose names go on behind it come later. -/
theorem getBootModule_iff {s t name : List (BitVec 8)} {strings : Nat → List (BitVec 8)}
    {modules : List BootModule} (hs : Ascii s) (ht : Ascii t) (hn : Ascii name)
    (hm : ∀ m ∈ modules, Ascii (strings m.name)) (short : name.length ≤ 128) :
    (Compares s t ↔ (s <+: t ∨ t <+: s → s = t)) ∧
      (getBootModule strings modules name =
          some (modules.findIdx? fun m => strings m.name = name) ↔
        ∀ (k : Nat) m, modules[k]? = some m → name <+: strings m.name → strings m.name ≠ name →
          ∃ j, j < k ∧ ∃ m', modules[j]? = some m' ∧ strings m'.name = name) :=
  ⟨compares_iff hs ht, getBootModule_first_iff hn hm short⟩

/-- Of two modules the second is found. -/
theorem getBootModule_found : Compares [97] [98] ∧
    getBootModule (fun n => [98, BitVec.ofNat 8 n]) [⟨0, 0, 0, 97⟩, ⟨0, 0, 0, 98⟩] [98, 98] =
      some (some 1) := by
  have both := @getBootModule_iff [97] [98] [98, 98] (fun n => [98, BitVec.ofNat 8 n])
    [⟨0, 0, 0, 97⟩, ⟨0, 0, 0, 98⟩] (by simp [Ascii]) (by simp [Ascii]) (by simp [Ascii])
    (by simp [Ascii]) (by decide)
  refine ⟨both.1.mpr (by decide), both.2.mpr fun k m at_k pre other => ?_⟩
  match k with
  | 0 =>
    obtain rfl := Option.some.inj at_k
    exact absurd pre (by decide)
  | 1 =>
    obtain rfl := Option.some.inj at_k
    exact absurd rfl other
  | k + 2 => exact absurd at_k (by simp)

/-- `b` as a name is not a module called `ba`, and is found. -/
theorem getBootModule_other : Ascii [98] ∧ Ascii [98, 97] ∧ ¬ Compares [98] [98, 97] ∧
    getBootModule (fun _ => [98, 97]) [⟨0, 0, 0, 0⟩] [98] = some (some 0) := by
  refine ⟨by simp [Ascii], by simp [Ascii], ?_, rfl⟩
  rintro ⟨x, y, run, -, equal, -⟩
  have zero : x = 0 := (Option.some.inj run).symm
  exact absurd (equal.mp zero) (by decide)

end

end Skylight.Limine

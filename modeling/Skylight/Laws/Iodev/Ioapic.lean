import Mathlib.Data.List.Forall2
import Mathlib.Data.List.Induction
import Skylight.Iodev.Ioapic
import Skylight.Lib.Links

/-!
# Registering I/O APICs

Only the first node of the list gets a null link. The link of every later node is whatever the
block held that `malloc` gave, so the list ends after its last node exactly if that was null.

`registered_iff` is about every list of controllers and every content of the heap's blocks, in
every state that the calls go through: nodes in order, null behind the last, and every id looked
up as the first controller of that id. The exact condition is on the blocks from the second one
on.
-/

namespace Skylight.Apic

open Skylight.Links
open Skylight.Paging (Addr)

/-- The words of a node. -/
def fields (node : Addr) : List Addr := [fieldBase node, fieldIoapicId node, fieldNext node]

/-- The first `n` blocks of `malloc` are there, and apart. -/
structure Mallocs (heap : Nat → Block) (n : Nat) : Prop where
  real : ∀ k < n, (heap k).address ≠ 0
  apart : ∀ j < n, ∀ k < n, j ≠ k → ∀ a ∈ fields (heap j).address, a ∉ fields (heap k).address

/-- The first `n` blocks. -/
def nodes (heap : Nat → Block) (n : Nat) : List Addr :=
  (List.range n).map fun k => (heap k).address

/-- What a node holds of its controller. -/
def Describes (r : Registry) (node : Addr) (controller : Controller) : Prop :=
  r.words (fieldBase node) = controller.base ∧
    r.words (fieldIoapicId node) = controller.ioapicId.setWidth 64

/-- The base of the first controller with an id, or null. -/
def baseOf (controllers : List Controller) (ioapicId : BitVec 64) : Addr :=
  ((controllers.find? (·.ioapicId.setWidth 64 = ioapicId)).map (·.base)).getD 0

/-- The list has a node for each controller, in order, and ends with null; and every id is looked
up as registered. -/
structure Registered (controllers : List Controller) (r : Registry) : Prop where
  list : ∃ l, Leads r.next r.ioapics l 0 ∧ (∀ node ∈ l, node ≠ 0) ∧
    List.Forall₂ (Describes r) l controllers
  lookup : ∀ ioapicId, ∃ fuel, apicIoGetBase fuel ioapicId r = some (baseOf controllers ioapicId)

/-- The list after calls whose blocks were null at the link. -/
structure Kept (heap : Nat → Block) (controllers : List Controller) (r : Registry) : Prop where
  leads : Leads r.next r.ioapics (nodes heap controllers.length) 0
  describes : ∀ k c, controllers[k]? = some c → Describes r (heap k).address c
  served : r.served = controllers.length

section
variable {heap : Nat → Block} {cs : List Controller} {c : Controller} {r r' : Registry}
  {fuel k j n i : Nat} {a z : Addr} {l : List Addr} {ioapicId : BitVec 64}

/-! ### The words of the blocks -/

/-- One block more. -/
theorem nodes_succ : nodes heap (n + 1) = nodes heap n ++ [(heap n).address] := by
  rw [nodes, List.range_succ, List.map_append]
  rfl

/-- There are as many nodes as blocks. -/
theorem length_nodes : (nodes heap n).length = n := by
  rw [nodes, List.length_map, List.length_range]

/-- The fields of a node are different words. -/
theorem base_ne_id : fieldBase a ≠ fieldIoapicId a := by
  unfold fieldBase fieldIoapicId
  bv_omega

/-- Base and link. -/
theorem base_ne_next : fieldBase a ≠ fieldNext a := by
  unfold fieldBase fieldNext
  bv_omega

/-- Id and link. -/
theorem id_ne_next : fieldIoapicId a ≠ fieldNext a := by
  unfold fieldIoapicId fieldNext
  bv_omega

/-- And those of different nodes are. -/
theorem Mallocs.off (m : Mallocs heap n) (hj : j < n) (hk : k < n) (ne : j ≠ k)
    (mem : a ∈ fields (heap j).address) :
    a ≠ fieldBase (heap k).address ∧ a ≠ fieldIoapicId (heap k).address ∧
      a ≠ fieldNext (heap k).address := by
  have off := m.apart j hj k hk ne a mem
  simpa [fields] using off

/-- The memory after a call: the words of the new node, and the link to it. -/
structure Appended (block : Block) (c : Controller) (link : BitVec 64) (last : Option Addr)
    (r r' : Registry) : Prop where
  base : r'.words (fieldBase block.address) = c.base
  id : r'.words (fieldIoapicId block.address) = c.ioapicId.setWidth 64
  next : r'.words (fieldNext block.address) = link
  linked : ∀ node ∈ last, r'.words (fieldNext node) = block.address
  other : ∀ a, a ∉ fields block.address → (∀ node ∈ last, a ≠ fieldNext node) →
    r'.words a = r.words a
  served : r'.served = r.served + 1

/-- A word is written. -/
@[simp] theorem set_words (r : Registry) (a x : Addr) (value : BitVec 64) :
    (r.set a value).words x = if x = a then value else r.words x := by
  by_cases same : x = a
  · rw [same, if_pos rfl]
    exact Function.update_self _ _ _
  · rw [if_neg same]
    exact Function.update_of_ne same _ _

/-- The list is elsewhere. -/
@[simp] theorem set_ioapics (r : Registry) (a : Addr) (value : BitVec 64) :
    (r.set a value).ioapics = r.ioapics := rfl

/-- And so is the count. -/
@[simp] theorem set_served (r : Registry) (a : Addr) (value : BitVec 64) :
    (r.set a value).served = r.served := rfl

/-- The words after `malloc`. -/
theorem malloc_words (x : Addr) : (r.malloc heap).2.words x =
    if x = fieldNext (heap r.served).address then (heap r.served).next
    else if x = fieldIoapicId (heap r.served).address then (heap r.served).ioapicId
    else if x = fieldBase (heap r.served).address then (heap r.served).base
    else r.words x := by
  unfold Registry.malloc
  simp only [set_words]

/-- Two fields are filled in. -/
theorem fill_words (r : Registry) (a x : Addr) : (r.fill a c).words x =
    if x = fieldIoapicId a then c.ioapicId.setWidth 64 else if x = fieldBase a then c.base
    else r.words x := by
  unfold Registry.fill
  simp only [set_words]

/-- The first call. -/
theorem register_first (empty : r.ioapics = 0) :
    ∃ r', apicIoRegisterController heap fuel c r = some r' ∧
      r'.ioapics = (heap r.served).address ∧ Appended (heap r.served) c 0 none r r' := by
  refine ⟨_, by rw [apicIoRegisterController, if_pos empty], rfl, ?_⟩
  have block : (r.malloc heap).1 = (heap r.served).address := rfl
  refine ⟨?_, ?_, ?_, fun node mem => (by cases mem), fun a off _ => ?_, rfl⟩
  · simp [fill_words, block, base_ne_id]
  · simp [fill_words, block]
  · simp [fill_words, block, base_ne_next.symm, id_ne_next.symm]
  · obtain ⟨base, id, next⟩ : a ≠ fieldBase (heap r.served).address ∧
        a ≠ fieldIoapicId (heap r.served).address ∧ a ≠ fieldNext (heap r.served).address := by
      simpa [fields] using off
    simp [fill_words, block, malloc_words, base, id, next]

/-- A later call, if the walk gets to a last node. -/
theorem register_later (some : r.ioapics ≠ 0) (off : fieldNext a ∉ fields (heap r.served).address)
    (walk : beforeNew r fuel r.ioapics = .some a) :
    ∃ r', apicIoRegisterController heap fuel c r = .some r' ∧ r'.ioapics = r.ioapics ∧
      Appended (heap r.served) c (heap r.served).next (.some a) r r' := by
  have block : (r.malloc heap).1 = (heap r.served).address := rfl
  have node : ((r.malloc heap).2.set (fieldNext a) (r.malloc heap).1).next a =
      (heap r.served).address := by
    rw [Registry.next, set_words, if_pos rfl, block]
  refine ⟨((r.malloc heap).2.set (fieldNext a) (r.malloc heap).1).fill (heap r.served).address c,
    ?_, rfl, ?_⟩
  · rw [apicIoRegisterController, if_neg some, walk, Option.map_some, ← node]
  obtain ⟨base, id, next⟩ : fieldNext a ≠ fieldBase (heap r.served).address ∧
      fieldNext a ≠ fieldIoapicId (heap r.served).address ∧
      fieldNext a ≠ fieldNext (heap r.served).address := by
    simpa [fields] using off
  refine ⟨?_, ?_, ?_, ?_, fun x off' ne => ?_, rfl⟩
  · simp [fill_words, base_ne_id]
  · simp [fill_words]
  · simp [fill_words, malloc_words, base_ne_next.symm, id_ne_next.symm, next.symm]
  · intro n mem
    obtain rfl := Option.mem_some_iff.mp mem
    simp [fill_words, block, base, id]
  · obtain ⟨base', id', next'⟩ : x ≠ fieldBase (heap r.served).address ∧
        x ≠ fieldIoapicId (heap r.served).address ∧ x ≠ fieldNext (heap r.served).address := by
      simpa [fields] using off'
    have ne' : x ≠ fieldNext a := ne a rfl
    simp [fill_words, malloc_words, base', id', next', ne']

/-! ### The list -/

/-- No node is at zero. -/
theorem nodes_ne (m : Mallocs heap n) (le : i ≤ n) : ∀ a ∈ nodes heap i, a ≠ 0 := by
  intro a mem
  obtain ⟨k, lt, rfl⟩ := List.mem_map.mp mem
  exact m.real k (Nat.lt_of_lt_of_le (List.mem_range.mp lt) le)

/-- The walk to the last node ends with enough fuel. -/
theorem beforeNew_eq (leads : Leads r.next a (l ++ [z]) 0) (real : ∀ b ∈ l ++ [z], b ≠ 0) :
    beforeNew r fuel a = if l.length < fuel then some z else none := by
  induction l generalizing a fuel with
  | nil =>
    obtain ⟨rfl, last⟩ := leads
    cases fuel with
    | zero => rfl
    | succ fuel =>
      have none : r.next a = 0 := last
      rw [beforeNew, if_neg (not_not.mpr none)]
      rfl
  | cons b l ih =>
    obtain ⟨rfl, rest⟩ := leads
    cases fuel with
    | zero => rfl
    | succ fuel =>
      rw [List.cons_append, List.forall_mem_cons] at real
      have more : r.next a ≠ 0 := real.2 _ (rest.start_mem (by simp))
      rw [beforeNew, if_pos more, ih rest real.2, List.length_cons]
      exact if_congr Nat.succ_lt_succ_iff.symm rfl rfl

/-- Nothing is listed at first. -/
theorem Kept.boot (words : Addr → BitVec 64) : Kept heap [] (.boot words) :=
  ⟨rfl, by simp, rfl⟩

/-- Nothing is listed yet. -/
theorem Kept.empty (kept : Kept heap [] r) : r.ioapics = 0 := kept.leads

/-- Otherwise the walk of a call goes to the node of the last controller. -/
theorem Kept.last (m : Mallocs heap n) (le : cs.length ≤ n) (kept : Kept heap cs r)
    (more : cs.length = i + 1) :
    Leads r.next r.ioapics (nodes heap i ++ [(heap i).address]) 0 ∧ r.ioapics ≠ 0 ∧
      beforeNew r fuel r.ioapics = if i < fuel then some (heap i).address else none := by
  have leads := kept.leads
  have real := nodes_ne m le
  rw [more, nodes_succ] at leads real
  have walk := @beforeNew_eq _ fuel _ _ _ leads real
  rw [length_nodes] at walk
  exact ⟨leads, real _ (leads.start_mem (by simp)), walk⟩

/-- The words of a node that are not its link are not written when another one is appended. -/
theorem Appended.field {i k : Nat} (m : Mallocs heap n)
    (app : Appended (heap i) c link last r r') (lt : i < n)
    (nexts : ∀ node ∈ last, ∃ j < i, node = (heap j).address) (less : k < i)
    (mem : a ∈ fields (heap k).address) (ne : a ≠ fieldNext (heap k).address) :
    r'.words a = r.words a := by
  apply app.other
  · exact m.apart k (by omega) i lt (by omega) a mem
  · intro node here
    obtain ⟨j, lt', rfl⟩ := nexts node here
    by_cases same : k = j
    · rw [← same]
      exact ne
    · exact (m.off (by omega) (by omega) same mem).2.2

/-- What the earlier nodes hold is not written, and the new one holds its controller. -/
theorem Appended.describes (m : Mallocs heap n) (few : cs.length < n) (kept : Kept heap cs r)
    (app : Appended (heap cs.length) c link last r r')
    (nexts : ∀ node ∈ last, ∃ j < cs.length, node = (heap j).address) (k : Nat) (d : Controller)
    (mem : (cs ++ [c])[k]? = some d) : Describes r' (heap k).address d := by
  have lt := (List.getElem?_eq_some_iff.mp mem).1
  rw [List.length_append, List.length_singleton] at lt
  by_cases new : k = cs.length
  · rw [new, List.getElem?_append_right (Nat.le_refl _), Nat.sub_self] at mem
    obtain rfl : c = d := by simpa using mem
    rw [new]
    exact ⟨app.base, app.id⟩
  · have less : k < cs.length := by omega
    rw [List.getElem?_append_left less] at mem
    obtain ⟨base, id⟩ := kept.describes k d mem
    unfold Describes
    rw [app.field m few nexts less (by simp [fields]) base_ne_next,
      app.field m few nexts less (by simp [fields]) id_ne_next]
    exact ⟨base, id⟩

/-- A call that ends puts the new node behind the others, with whatever link it has. -/
theorem Kept.step (m : Mallocs heap n) (few : cs.length < n) (kept : Kept heap cs r)
    (run : apicIoRegisterController heap fuel c r = some r') :
    Leads r'.next r'.ioapics (nodes heap (cs.length + 1))
        (if cs = [] then 0 else (heap cs.length).next) ∧
      (∀ k d, (cs ++ [c])[k]? = some d → Describes r' (heap k).address d) ∧
      r'.served = cs.length + 1 := by
  have served := kept.served
  by_cases first : cs = []
  · have empty : r.ioapics = 0 := by
      rw [first] at kept
      exact kept.empty
    obtain ⟨r'', again, start, app⟩ := @register_first heap c r fuel empty
    obtain rfl : r'' = r' := Option.some.inj (again.symm.trans run)
    rw [served] at app start
    refine ⟨?_, app.describes m few kept (fun node mem => by cases mem), by rw [app.served, served]⟩
    rw [if_pos first, first]
    rw [first] at start app
    exact ⟨start, app.next⟩
  · obtain ⟨i, more⟩ := Nat.exists_eq_succ_of_ne_zero (mt List.length_eq_zero_iff.mp first)
    obtain ⟨leads, some, walk⟩ := @Kept.last heap cs r fuel n i m (Nat.le_of_lt few) kept more
    by_cases enough : i < fuel
    · rw [if_pos enough] at walk
      have ne : i ≠ cs.length := by omega
      obtain ⟨r'', again, start, app⟩ := @register_later heap c r fuel _ some
        (by rw [served]; exact m.apart i (by omega) cs.length few ne _ (by simp [fields])) walk
      obtain rfl : r'' = r' := Option.some.inj (again.symm.trans run)
      rw [served] at app
      have nexts : ∀ node ∈ Option.some (heap i).address, ∃ j < cs.length,
          node = (heap j).address :=
        fun node mem => ⟨i, by omega, (Option.mem_some_iff.mp mem).symm⟩
      refine ⟨?_, app.describes m few kept nexts, by rw [app.served, served]⟩
      rw [if_neg first, nodes_succ, leads_snoc, more, nodes_succ, leads_snoc, ← more, start]
      rw [leads_snoc] at leads
      refine ⟨⟨?_, app.linked _ rfl⟩, app.next⟩
      -- the links of the nodes before the last one stay
      apply leads.1.frame
      intro b mem
      obtain ⟨k, lt, rfl⟩ := List.mem_map.mp mem
      rw [List.mem_range] at lt
      apply app.other
      · exact m.apart k (by omega) cs.length few (by omega) _ (by simp [fields])
      · intro node here
        obtain rfl := Option.mem_some_iff.mp here
        exact (m.off (by omega) (by omega) (show k ≠ i by omega) (by simp [fields])).2.2
    · rw [if_neg enough] at walk
      rw [apicIoRegisterController, if_neg some, walk] at run
      cases run

/-- With enough fuel a call ends. -/
theorem Kept.runs (m : Mallocs heap n) (few : cs.length < n) (kept : Kept heap cs r)
    (enough : cs.length < fuel) :
    ∃ r', apicIoRegisterController heap fuel c r = some r' := by
  by_cases first : cs = []
  · rw [first] at kept
    obtain ⟨r', run, -⟩ := @register_first heap c r fuel kept.empty
    exact ⟨r', run⟩
  · obtain ⟨i, more⟩ := Nat.exists_eq_succ_of_ne_zero (mt List.length_eq_zero_iff.mp first)
    obtain ⟨-, some, walk⟩ := @Kept.last heap cs r fuel n i m (Nat.le_of_lt few) kept more
    rw [if_pos (by omega)] at walk
    rw [apicIoRegisterController, if_neg some, walk]
    exact ⟨_, rfl⟩

/-! ### The lookup -/

/-- The lookup goes through the nodes in order. -/
theorem getBaseLoop_eq (leads : Leads r.next a l 0) (real : ∀ b ∈ l, b ≠ 0)
    (describes : List.Forall₂ (Describes r) l cs) :
    getBaseLoop r ioapicId (l.length + 1) a = some (baseOf cs ioapicId) := by
  induction describes generalizing a with
  | nil =>
    have zero : a = 0 := leads
    rw [getBaseLoop, if_pos zero]
    rfl
  | @cons b d l cs here rest ih =>
    obtain ⟨rfl, further⟩ := leads
    rw [List.forall_mem_cons] at real
    rw [List.length_cons, getBaseLoop, if_neg real.1, here.2]
    unfold baseOf
    by_cases found : d.ioapicId.setWidth 64 = ioapicId
    · rw [if_pos found, List.find?_cons_of_pos (by simp [found]), here.1]
      rfl
    · rw [if_neg found, List.find?_cons_of_neg (by simp [found])]
      exact ih further real.2

/-- The nodes hold the controllers, one by one. -/
theorem Kept.forall₂ (kept : Kept heap cs r) :
    List.Forall₂ (Describes r) (nodes heap cs.length) cs := by
  rw [List.forall₂_iff_get]
  refine ⟨length_nodes, fun i h h' => ?_⟩
  have mem : cs[i]? = some (cs.get ⟨i, h'⟩) := List.getElem?_eq_getElem h'
  have describes := kept.describes i _ mem
  simpa [nodes] using describes

/-- A list that was kept is as it should be. -/
theorem Kept.registered (m : Mallocs heap n) (few : cs.length ≤ n) (kept : Kept heap cs r) :
    Registered cs r where
  list := ⟨nodes heap cs.length, kept.leads, nodes_ne m few, kept.forall₂⟩
  lookup _ := ⟨_, getBaseLoop_eq kept.leads (nodes_ne m few) kept.forall₂⟩

/-- A list that goes on behind its last node is not. -/
theorem not_registered {l : List Addr} (leads : Leads r.next r.ioapics l z) (some : z ≠ 0)
    (long : l.length = cs.length) : ¬ Registered cs r := by
  intro registered
  obtain ⟨l', leads', -, describes⟩ := registered.list
  have same := leads.determined leads' (long.trans describes.length_eq.symm)
  exact some same.2

/-! ### Runs -/

/-- One controller more. -/
theorem registerAll_snoc : registerAll heap fuel (cs ++ [c]) r =
    (registerAll heap fuel cs r).bind (apicIoRegisterController heap fuel c) := by
  rw [registerAll, List.foldlM_append]
  simp only [List.foldlM_cons, List.foldlM_nil, bind_pure]
  rfl

/-- A call whose block came with a null link, if it is not the first, keeps the list. -/
theorem Kept.next (m : Mallocs heap n) (few : cs.length < n) (kept : Kept heap cs r)
    (run : apicIoRegisterController heap fuel c r = some r')
    (null : 1 ≤ cs.length → (heap cs.length).next = 0) : Kept heap (cs ++ [c]) r' := by
  obtain ⟨leads, describes, served⟩ := kept.step m few run
  have length : (cs ++ [c]).length = cs.length + 1 := by
    rw [List.length_append, List.length_singleton]
  have closed : (if cs = [] then 0 else (heap cs.length).next) = 0 := by
    split
    · rfl
    · next some => exact null (List.length_pos_of_ne_nil some)
  rw [closed, ← length] at leads
  exact ⟨leads, describes, served.trans length.symm⟩

/-- As long as the blocks behind the first one come with a null link, the list is kept. -/
theorem registerAll_kept (m : Mallocs heap n) (few : cs.length ≤ n) {words : Addr → BitVec 64}
    (null : ∀ k, 1 ≤ k → k < cs.length → (heap k).next = 0)
    (run : registerAll heap fuel cs (.boot words) = some r) : Kept heap cs r := by
  induction cs using List.reverseRecOn generalizing r with
  | nil =>
    obtain rfl := Option.some.inj run
    exact .boot words
  | append_singleton cs c ih =>
    rw [List.length_append, List.length_singleton] at null few
    rw [registerAll_snoc] at run
    obtain ⟨r₁, before, call⟩ := Option.bind_eq_some_iff.mp run
    have kept := ih (by omega) (fun k pos lt => null k pos (by omega)) before
    exact kept.next m few call fun pos => null _ pos (Nat.lt_succ_self _)

/-- And every call ends. -/
theorem registerAll_runs (m : Mallocs heap n) (few : cs.length ≤ n) (words : Addr → BitVec 64)
    (null : ∀ k, 1 ≤ k → k < cs.length → (heap k).next = 0) (enough : cs.length ≤ fuel) :
    ∃ r, registerAll heap fuel cs (.boot words) = some r := by
  induction cs using List.reverseRecOn with
  | nil => exact ⟨_, rfl⟩
  | append_singleton cs c ih =>
    rw [List.length_append, List.length_singleton] at null enough few
    have earlier : ∀ k, 1 ≤ k → k < cs.length → (heap k).next = 0 := fun k pos lt =>
      null k pos (by omega)
    obtain ⟨r, run⟩ := ih (by omega) earlier (by omega)
    rw [registerAll_snoc, run]
    exact (registerAll_kept m (by omega) earlier run).runs m few (by omega)

/-- With the first block that came with another link the list does not end behind its node. -/
theorem registerAll_open (m : Mallocs heap n) (few : cs.length < n) {words : Addr → BitVec 64}
    (null : ∀ k, 1 ≤ k → k < cs.length → (heap k).next = 0) (later : cs ≠ [])
    (some : (heap cs.length).next ≠ 0)
    (run : registerAll heap fuel (cs ++ [c]) (.boot words) = .some r) :
    ¬ Registered (cs ++ [c]) r := by
  rw [registerAll_snoc] at run
  obtain ⟨r₁, before, call⟩ := Option.bind_eq_some_iff.mp run
  have kept := registerAll_kept m (by omega) null before
  obtain ⟨leads, -, -⟩ := kept.step m few call
  rw [if_neg later] at leads
  apply not_registered leads some
  rw [length_nodes, List.length_append, List.length_singleton]

/-- In every run, after every call, the list is as it should be if and only if every block from
the second on came with a null link. -/
theorem registered_iff (m : Mallocs heap cs.length) (words : Addr → BitVec 64) :
    (∀ n ≤ cs.length, ∃ fuel r, registerAll heap fuel (cs.take n) (.boot words) = some r ∧
        Registered (cs.take n) r) ↔
      ∀ k, 1 ≤ k → k < cs.length → (heap k).next = 0 := by
  constructor
  · intro all k
    induction k using Nat.strongRecOn with
    | ind k ih =>
      intro pos lt
      by_contra some
      have short : (cs.take k).length = k := List.length_take_of_le (by omega)
      obtain ⟨fuel, r, run, registered⟩ := all (k + 1) lt
      rw [List.take_succ_eq_append_getElem lt] at run registered
      refine registerAll_open m (by omega) (fun j pos' lt' => ih j (by omega) pos' (by omega)) ?_
        (by rwa [short]) run registered
      exact List.ne_nil_of_length_pos (by omega)
  · intro null n le
    have short : (cs.take n).length = n := List.length_take_of_le le
    have earlier : ∀ k, 1 ≤ k → k < (cs.take n).length → (heap k).next = 0 := fun k pos lt =>
      null k pos (by omega)
    obtain ⟨r, run⟩ := registerAll_runs m (by omega) words earlier (Nat.le_refl _)
    exact ⟨_, r, run, (registerAll_kept m (by omega) earlier run).registered m (by omega)⟩

end

/-! ### Two controllers -/

/-- Blocks of 32 bytes one behind the other, with `link` in every word. -/
def blocks (link : BitVec 64) (k : Nat) : Block :=
  ⟨BitVec.ofNat 64 (0x1000 + 32 * k), link, link, link⟩

def twoControllers : List Controller := [⟨0, 0xfec00000⟩, ⟨1, 0xfec01000⟩]

/-- They are apart. -/
theorem blocks_mallocs (link : BitVec 64) : Mallocs (blocks link) 2 where
  real := show ∀ k < 2, BitVec.ofNat 64 (0x1000 + 32 * k) ≠ 0 by decide
  apart j hj k hk ne := by
    have two : j = 0 ∧ k = 1 ∨ j = 1 ∧ k = 0 := by omega
    rcases two with ⟨rfl, rfl⟩ | ⟨rfl, rfl⟩
    · simp [blocks, fields, fieldBase, fieldIoapicId, fieldNext]
    · simp [blocks, fields, fieldBase, fieldIoapicId, fieldNext]

/-- With null links two controllers are listed. -/
theorem registered_two : ∃ fuel r,
    registerAll (blocks 0) fuel twoControllers (.boot fun _ => 0) = some r ∧
      Registered twoControllers r :=
  (@registered_iff _ twoControllers (blocks_mallocs 0) fun _ => 0).mpr (fun _ _ _ => rfl) 2
    (Nat.le_refl 2)

/-- The second node's link is not null where its block is not. -/
theorem not_always_registered : ¬ ∀ (heap : Nat → Block) (cs : List Controller)
    (words : Addr → BitVec 64), Mallocs heap cs.length →
    ∃ fuel r, registerAll heap fuel cs (.boot words) = some r ∧ Registered cs r := by
  intro all
  obtain ⟨fuel, r, run, registered⟩ := all (blocks 1) twoControllers (fun _ => 0) (blocks_mallocs 1)
  refine @registerAll_open (blocks 1) [⟨0, 0xfec00000⟩] ⟨1, 0xfec01000⟩ r fuel 2 (blocks_mallocs 1)
    (by decide) _ ?_ (List.cons_ne_nil _ _) (by decide) run registered
  intro k pos lt
  rw [List.length_singleton] at lt
  omega

end Skylight.Apic

import Skylight.Laws.Apps.Malloc
import Skylight.Laws.Heap.Contracts

/-!
# Runs of the heap of prism

Calls of `malloc` and `free` and what the owner of a block writes to it. No block is ever given
back: the test that `free` begins with holds of no header that there is, so every `malloc` takes new
memory.
-/

namespace Skylight.UserHeap

open Skylight.Bytes Skylight.Heap

/-- What the program does. -/
inductive Op
  | malloc (size : Addr)
  | free (pointer : Addr)
  | write (address : Addr) (byte : BitVec 8)

/-- It gives back and writes to live blocks only, and asks for less than there are addresses for
user programs. -/
def Admits (w : World) : Op → Prop
  | .malloc size => size.toNat < 2 ^ 47
  | .free pointer => (w.live pointer).isSome
  | .write address _ => ∃ pointer n, w.live pointer = some n ∧ InRange pointer n address

def run (g : Nat → Addr) (cr3 : Addr) (fuel : Nat) (w : World) : Op → Option World
  | .malloc size => (malloc g cr3 fuel w.heap size).map fun r =>
      ⟨r.2, grant w.live r.1 size.toNat⟩
  | .free pointer => some ⟨free w.heap pointer, revoke w.live pointer⟩
  | .write address byte =>
      some ⟨{ w.heap with mem := Function.update w.heap.mem address byte }, w.live⟩

/-- A step of a run in which the heap stays below `2 ^ 47`, where the addresses of user programs
end. -/
def Step (g : Nat → Addr) (cr3 : Addr) (w : World) (op : Op) (w' : World) : Prop :=
  Admits w op ∧ (∃ fuel, run g cr3 fuel w op = some w') ∧
    (w'.heap.heapInitialized = true → w'.heap.heapEnd.toNat ≤ 2 ^ 47)

/-- What the steps of a run lead to. -/
inductive Trace (g : Nat → Addr) (cr3 : Addr) (w₀ : World) : List Op → World → Prop
  | start : Trace g cr3 w₀ [] w₀
  | step {ops : List Op} {w w' : World} {op : Op} : Trace g cr3 w₀ ops w →
      Step g cr3 w op w' → Trace g cr3 w₀ (ops ++ [op]) w'

/-- The lengths that `malloc` looks for, calls for nothing left out. -/
def asked : List Op → List Nat
  | [] => []
  | .malloc size :: ops =>
    if roundUp size = 0 then asked ops else (roundUp size).toNat :: asked ops
  | _ :: ops => asked ops

/-- All segments. -/
def Layout.pieces (l : Layout) : List Piece := l.used ++ [l.tail]

/-- The segments in use. -/
def Layout.inUse (l : Layout) : List Piece := if l.free then l.used else l.pieces

/-- The block is the payload of a segment in use. -/
def Layout.Owns (l : Layout) (p : Addr) (n : Nat) : Prop :=
  ∃ pre q post, l.inUse = pre ++ q :: post ∧ p = BitVec.ofNat 64 (pastEnd base pre + 32) ∧
    n ≤ q.length

/-- The layout after a `malloc` of `n` bytes. -/
def Layout.serve (l : Layout) (n : Nat) : Layout := (l.ready n).take n

/-- The layout after all of them. -/
def laid (lengths : List Nat) : Layout := lengths.foldl Layout.serve Layout.first

/-- A heap that has been initialized, and its live blocks. -/
structure Sound (w : World) (l : Layout) : Prop where
  lies : Lies w.heap l
  low : l.fin ≤ 2 ^ 47
  owns : ∀ p n, w.live p = some n → l.Owns p n

/-- What holds in every state of a run. -/
def Inv (w : World) (lengths : List Nat) : Prop :=
  World.Initial w ∧ lengths = [] ∨ Sound w (laid lengths)

section
variable {h h' : Heap} {g : Nat → Addr} {cr3 : Addr} {a b n fuel k : Nat} {p q : Piece}
  {ps us pre post : List Piece} {l : Layout} {x y size pointer : Addr} {w w' w₀ : World} {op : Op}
  {ops : List Op} {lengths : List Nat} {hd hd' : Addr → Header}

/-! ### Headers and blocks -/

/-- Where the headers are. -/
def places (a : Nat) : List Piece → List Nat
  | [] => []
  | p :: ps => a :: places (a + p.reach) ps

/-- Segments one behind the other. -/
theorem pastEnd_append : pastEnd a (us ++ ps) = pastEnd (pastEnd a us) ps := by
  induction us generalizing a with
  | nil => rfl
  | cons p us ih => exact ih

/-- And their headers. -/
theorem places_append : places a (us ++ ps) = places a us ++ places (pastEnd a us) ps := by
  induction us generalizing a with
  | nil => rfl
  | cons p us ih => exact congrArg (a :: ·) ih

/-- A header is between the two ends. -/
theorem places_bounds (mem : b ∈ places a us) : a ≤ b ∧ b + 32 ≤ pastEnd a us := by
  induction us generalizing a with
  | nil => cases mem
  | cons p us ih =>
    have room : a + p.reach ≤ pastEnd (a + p.reach) us := le_pastEnd
    have wide : 32 ≤ p.reach := by
      rw [Piece.reach]
      omega
    rcases List.mem_cons.mp mem with rfl | mem
    · exact ⟨Nat.le_refl _, by rw [pastEnd]; omega⟩
    · obtain ⟨low, high⟩ := ih mem
      exact ⟨by omega, high⟩

/-- No header is in the payload of a segment. -/
theorem places_apart (mem : b ∈ places a (pre ++ q :: post)) :
    b ≤ pastEnd a pre ∨ pastEnd a pre + 32 + q.length ≤ b := by
  rw [places_append] at mem
  rcases List.mem_append.mp mem with before | behind
  · have bounds := places_bounds before
    omega
  · rcases List.mem_cons.mp behind with rfl | behind
    · exact Or.inl (Nat.le_refl _)
    · have bounds := places_bounds behind
      rw [Piece.reach] at bounds
      omega

/-- A chain is in its headers. -/
theorem Chained.congr_places (chained : Chained hd k a us)
    (same : ∀ b ∈ places a us, hd' (BitVec.ofNat 64 b) = hd (BitVec.ofNat 64 b)) :
    Chained hd' k a us := by
  induction us generalizing k a with
  | nil => trivial
  | cons p us ih =>
    rw [places, List.forall_mem_cons] at same
    refine ⟨?_, ih chained.2 same.2⟩
    rw [same.1]
    exact chained.1

/-- The headers of a layout. -/
theorem Layout.places_pieces (l : Layout) :
    places base l.pieces = places base l.used ++ [l.place] := places_append

/-- Its end. -/
theorem Layout.pastEnd_pieces (l : Layout) : pastEnd base l.pieces = l.fin := pastEnd_concat

/-- A write that leaves the headers alone. -/
theorem Lies.write (lies : Lies h l) (byte : BitVec 8)
    (off : ∀ b ∈ places base l.pieces, ¬ InRange (BitVec.ofNat 64 b) 32 x) :
    Lies { h with mem := Function.update h.mem x byte } l := by
  have same : ∀ b ∈ places base l.pieces, Heap.header { h with mem := Function.update h.mem x byte }
      (BitVec.ofNat 64 b) = h.header (BitVec.ofNat 64 b) := by
    intro b mem
    apply header_congr
    intro y near
    apply Function.update_of_ne
    rintro rfl
    exact off b mem near
  rw [Layout.places_pieces, List.forall_mem_append] at same
  refine ⟨lies.initialized, lies.start, ?_, ?_, lies.last, lies.ends⟩
  · exact lies.chained.congr_places same.1
  · rw [same.2 _ (List.mem_singleton_self _)]
    exact lies.tail

/-- The segments in use come first. -/
theorem Layout.inUse_front (l : Layout) : l.inUse <+: l.pieces := by
  rw [Layout.inUse]
  split
  · exact List.prefix_append _ _
  · exact List.prefix_rfl

/-- A block lies in the heap, with its header before it. -/
theorem Layout.Owns.place (owns : l.Owns pointer n) : ∃ pre q post, l.pieces = pre ++ q :: post ∧
    pointer = BitVec.ofNat 64 (pastEnd base pre + 32) ∧ n ≤ q.length := by
  obtain ⟨pre, q, post, split, eq, le⟩ := owns
  obtain ⟨rest, all⟩ := l.inUse_front
  refine ⟨pre, q, post ++ rest, ?_, eq, le⟩
  rw [← all, split, List.append_assoc]
  rfl

/-- A header between two others. -/
theorem Chained.header (chained : Chained hd k a (pre ++ q :: post)) : ∃ l,
    hd (BitVec.ofNat 64 (pastEnd a pre)) = ⟨BitVec.ofNat 64 q.length,
      BitVec.ofNat 64 (pastEnd a pre + q.reach), l, false⟩ := by
  induction pre generalizing k a with
  | nil => exact ⟨_, chained.1⟩
  | cons p pre ih => exact ih chained.2

/-- The header of a segment: the last one, which leads nowhere, or one that is in use. -/
theorem Lies.header (lies : Lies h l) (split : l.pieces = pre ++ q :: post) :
    h.length (BitVec.ofNat 64 (pastEnd base pre)) = BitVec.ofNat 64 q.length ∧
      (post = [] ∧ l.used = pre ∧ h.next (BitVec.ofNat 64 (pastEnd base pre)) = 0 ∧
          h.isFree (BitVec.ofNat 64 (pastEnd base pre)) = l.free ∨
        post ≠ [] ∧ h.next (BitVec.ofNat 64 (pastEnd base pre)) =
            BitVec.ofNat 64 (pastEnd base pre + q.reach) ∧
          h.isFree (BitVec.ofNat 64 (pastEnd base pre)) = false) := by
  rw [← length_header, ← next_header, ← isFree_header]
  rcases List.eq_nil_or_concat post with rfl | ⟨post, t, rfl⟩
  · obtain ⟨rfl, one⟩ := List.append_inj' split rfl
    obtain rfl := List.singleton_inj.mp one
    have tail := lies.tail
    rw [Layout.place] at tail
    rw [tail]
    exact ⟨rfl, Or.inl ⟨rfl, rfl, rfl, rfl⟩⟩
  · rw [List.concat_eq_append] at split ⊢
    have split' : l.used ++ [l.tail] = (pre ++ q :: post) ++ [t] := by
      rw [List.append_assoc]
      exact split
    obtain ⟨used, -⟩ := List.append_inj' split' rfl
    obtain ⟨back, header⟩ := (used ▸ lies.chained).header
    rw [header]
    exact ⟨rfl, Or.inr ⟨List.append_ne_nil_of_right_ne_nil _ (List.cons_ne_nil t []), rfl, rfl⟩⟩

/-! ### `free` -/

/-- The test of `free` fails for every header that there is. -/
theorem Lies.refuses (lies : Lies h l) (small : l.fin ≤ 2 ^ 47)
    (split : l.pieces = pre ++ q :: post) :
    free h (BitVec.ofNat 64 (pastEnd base pre + 32)) = h := by
  have above := base_eq
  have start : base ≤ pastEnd base pre := le_pastEnd
  have room : pastEnd base pre + q.reach ≤ l.fin := by
    rw [← l.pastEnd_pieces, split, pastEnd_append]
    exact le_pastEnd
  have wide : q.reach = 32 + q.length + q.lost := rfl
  have segment : BitVec.ofNat 64 (pastEnd base pre + 32) - headerSize =
      BitVec.ofNat 64 (pastEnd base pre) := by
    rw [show headerSize = BitVec.ofNat 64 32 from rfl, BitVec.ofNat_add, BitVec.add_sub_cancel]
  obtain ⟨length, next⟩ := lies.header split
  rw [free, segment]
  refine if_pos fun same => ?_
  have value := congrArg BitVec.toNat same
  rcases next with ⟨-, -, next, -⟩ | ⟨-, next, -⟩
  · rw [next, length, BitVec.toNat_sub, BitVec.toNat_ofNat, BitVec.toNat_ofNat,
      show (0 : Addr).toNat = 0 from rfl] at value
    omega
  · rw [next, length, BitVec.toNat_sub, BitVec.toNat_ofNat, BitVec.toNat_ofNat,
      BitVec.toNat_ofNat] at value
    omega

/-- `free` of a block leaves the heap as it is. -/
theorem Lies.free_owned (lies : Lies h l) (small : l.fin ≤ 2 ^ 47) (owns : l.Owns pointer n) :
    free h pointer = h := by
  obtain ⟨pre, q, post, split, rfl, -⟩ := owns.place
  exact lies.refuses small split

/-! ### `malloc` -/

/-- A block that is taken is one more segment in use. -/
theorem Layout.take_inUse (fits : l.Fits n) :
    ∃ q, n ≤ q.length ∧ (l.take n).inUse = l.inUse ++ [q] ∧ l.inUse = l.used := by
  have used : l.inUse = l.used := by rw [Layout.inUse, if_pos fits.1]
  rw [used, Layout.take]
  split
  · exact ⟨⟨n, 0⟩, Nat.le_refl n, if_pos rfl, rfl⟩
  · exact ⟨l.tail, fits.2, if_neg Bool.false_ne_true, rfl⟩

/-- A longer heap has the same segments in use. -/
theorem Layout.grow_inUse (l : Layout) (n : Nat) : (l.grow n).inUse = l.inUse := by
  rw [Layout.inUse, if_pos (l.grow_free n), Layout.grow]
  split
  · next mark => exact (if_pos mark).symm
  · next mark => exact (if_neg mark).symm

/-- And so has the one that `malloc` takes from. -/
theorem Layout.ready_inUse (l : Layout) (n : Nat) : (l.ready n).inUse = l.inUse := by
  rw [Layout.ready]
  split
  · rfl
  · split
    · exact l.grow_inUse n
    · rw [Layout.grow_inUse, Layout.grow_inUse]

/-- Taking moves no end. -/
theorem Layout.take_fin (l : Layout) (n : Nat) : (l.take n).fin = l.fin := by
  rw [Layout.take]
  split
  · next long => exact Layout.cut_fin long
  · rfl

/-- What is mapped for a call is bounded. -/
theorem Layout.ready_fin (l : Layout) (pos : 0 < n) :
    (l.ready n).fin ≤ l.fin + 2 * wholePages n := by
  rw [Layout.ready]
  split
  · omega
  · split
    · rw [l.grow_fin pos]
      omega
    · rw [Layout.grow_fin _ pos, l.grow_fin pos]
      omega

/-! ### Steps -/

/-- The rounding of `malloc`. -/
theorem roundUp_bounds (less : size.toNat < 2 ^ 47) : size.toNat ≤ (roundUp size).toNat ∧
    (roundUp size).toNat < 2 ^ 47 + 16 ∧ (roundUp size).toNat % 16 = 0 := by
  rw [roundUp_toNat (by omega)]
  omega

/-- Blocks stay where there are more. -/
theorem owns_append {l' : Layout} (grown : l'.inUse = l.inUse ++ [q]) (owns : l.Owns pointer n) :
    l'.Owns pointer n := by
  obtain ⟨pre, p, post, split, eq, le⟩ := owns
  refine ⟨pre, p, post ++ [q], ?_, eq, le⟩
  rw [grown, split, List.append_assoc]
  rfl

/-- What `malloc` leaves of a heap that there is, if it is asked for something. -/
theorem Sound.obtains (sound : Sound w l) (less : size.toNat < 2 ^ 47) (some' : roundUp size ≠ 0)
    (low : h'.heapInitialized = true → h'.heapEnd.toNat ≤ 2 ^ 47)
    (run : malloc g cr3 fuel w.heap size = some (pointer, h')) :
    Sound ⟨h', grant w.live pointer size.toNat⟩ (l.serve (roundUp size).toNat) := by
  obtain ⟨enough, few, even⟩ := roundUp_bounds less
  have round : roundUp size = BitVec.ofNat 64 (roundUp size).toNat := by simp
  have nonzero : (roundUp size).toNat ≠ 0 := fun zero => some' (BitVec.eq_of_toNat_eq zero)
  generalize (roundUp size).toNat = n at enough few even round nonzero ⊢
  have before := sound.low
  obtain ⟨rfl, lies⟩ := sound.lies.obtains round (by omega) even (by omega) (by omega) run
  have above := base_eq
  have start := (l.ready n).base_le
  have size' := (l.ready n).place_le
  have grown := l.ready_fin (show 0 < n by omega)
  have pages := wholePages_bounds n
  have fin : (l.serve n).fin ≤ 2 ^ 47 := by
    have low := low lies.initialized
    rw [lies.ends, BitVec.toNat_ofNat, Layout.take_fin] at low
    rw [Layout.serve, Layout.take_fin]
    omega
  obtain ⟨q, le, inUse, used⟩ := Layout.take_inUse (l.ready_fits n)
  have place : BitVec.ofNat 64 ((l.ready n).place + 32) ≠ 0 := ofNat_ne_zero (by omega) (by omega)
  refine ⟨lies, fin, fun p m live => ?_⟩
  change grant w.live _ _ p = _ at live
  rw [grant, if_neg place, Function.update_apply] at live
  split at live
  · next same =>
    refine ⟨(l.ready n).inUse, q, [], inUse, ?_, ?_⟩
    · rw [same, used]
      rfl
    · exact Nat.le_trans (Nat.le_of_eq (Option.some.inj live).symm) (Nat.le_trans enough le)
  · rw [Layout.ready_inUse] at inUse
    exact owns_append inUse (sound.owns p m live)

/-- The lengths of one more call. -/
theorem asked_append : asked (ops ++ [op]) = asked ops ++ asked [op] := by
  induction ops with
  | nil => rfl
  | cons first ops ih =>
    cases first with
    | malloc size =>
      rw [List.cons_append, asked, asked, ih]
      split <;> rfl
    | free pointer => exact ih
    | write address byte => exact ih

/-- The heap that the first call makes. -/
theorem Sound.fresh (initial : World.Initial w) (lies : Lies h' Layout.first) :
    Sound ⟨h', w.live⟩ Layout.first where
  lies := lies
  low := by
    rw [Layout.first_fin, base_eq]
    omega
  owns p n live := by
    rw [show w.live p = none from initial.2 p] at live
    cases live

/-- `free` keeps the heap sound. -/
theorem Sound.free (sound : Sound w l) (owned : (w.live pointer).isSome) :
    Sound ⟨UserHeap.free w.heap pointer, revoke w.live pointer⟩ l := by
  obtain ⟨n, live⟩ := Option.isSome_iff_exists.mp owned
  rw [sound.lies.free_owned sound.low (sound.owns pointer n live)]
  refine ⟨sound.lies, sound.low, fun p m live' => ?_⟩
  change revoke w.live pointer p = _ at live'
  rw [revoke, Function.update_apply] at live'
  split at live'
  · cases live'
  · exact sound.owns p m live'

/-- The owner of a block writes to no header. -/
theorem Sound.write (sound : Sound w l) (live : w.live pointer = some n)
    (inside : InRange pointer n x) (byte : BitVec 8) :
    Sound ⟨{ w.heap with mem := Function.update w.heap.mem x byte }, w.live⟩ l := by
  obtain ⟨pre, q, post, split, rfl, le⟩ := (sound.owns pointer n live).place
  refine ⟨sound.lies.write byte fun b mem near => ?_, sound.low, sound.owns⟩
  have above := base_eq
  have low := sound.low
  have bounds := places_bounds mem
  have apart := places_apart (split ▸ mem)
  have room : pastEnd base pre + q.reach ≤ l.fin := by
    rw [← l.pastEnd_pieces, split, pastEnd_append]
    exact le_pastEnd
  have wide : q.reach = 32 + q.length + q.lost := rfl
  rw [l.pastEnd_pieces] at bounds
  rw [InRange, BitVec.toNat_sub, BitVec.toNat_ofNat] at inside near
  have small := x.isLt
  omega

/-- What a step leaves. -/
theorem Inv.step (inv : Inv w (asked ops)) (step : Step g cr3 w op w') :
    Inv w' (asked (ops ++ [op])) := by
  obtain ⟨admits, ⟨fuel, ran⟩, low⟩ := step
  rw [asked_append]
  cases op with
  | malloc size =>
    rw [run, Option.map_eq_some_iff] at ran
    obtain ⟨⟨pointer, h'⟩, ran, rfl⟩ := ran
    -- a heap that there is, be it the one that the call makes
    obtain ⟨h, sound, ran⟩ : ∃ h, Sound ⟨h, w.live⟩ (laid (asked ops)) ∧
        malloc g cr3 fuel h size = some (pointer, h') := by
      rcases inv with ⟨initial, nothing⟩ | sound
      · obtain ⟨h, lies, ran⟩ := malloc_fresh initial.1 ran
        rw [nothing]
        exact ⟨h, Sound.fresh initial lies, ran⟩
      · exact ⟨w.heap, sound, ran⟩
    rw [asked, asked]
    split
    · next nothing =>
      obtain ⟨rfl, rfl⟩ := sound.lies.malloc_nothing nothing ran
      rw [List.append_nil]
      exact Or.inr sound
    · next something =>
      refine Or.inr ?_
      rw [laid, List.foldl_concat]
      exact sound.obtains admits something low ran
  | free pointer =>
    obtain rfl := Option.some.inj ran
    rw [show asked [Op.free pointer] = [] from rfl, List.append_nil]
    rcases inv with ⟨initial, -⟩ | sound
    · rw [Admits, initial.2 pointer] at admits
      cases admits
    · exact Or.inr (sound.free admits)
  | write address byte =>
    obtain rfl := Option.some.inj ran
    obtain ⟨pointer, n, live, inside⟩ := admits
    rw [show asked [Op.write address byte] = [] from rfl, List.append_nil]
    rcases inv with ⟨initial, -⟩ | sound
    · rw [initial.2 pointer] at live
      cases live
    · exact Or.inr (sound.write live inside byte)

/-- What holds at the end of a run. -/
theorem Trace.inv (initial : World.Initial w₀) (trace : Trace g cr3 w₀ ops w) :
    Inv w (asked ops) := by
  induction trace with
  | start => exact Or.inl ⟨initial, rfl⟩
  | step _ step ih => exact ih.step step

end

/-! ### A machine -/

open Paging (spaceFrames newRoot machineRoot)

section
variable {g : Nat → Addr} {cr3 y size : Addr} {fuel n k m : Nat} {h : Heap}

/-- A page is mapped, and a page fewer is left. -/
theorem pmap_runs (y : Addr) (root : h.tables.pml4 = cr3)
    (supply : Supply g fuel n (k + 1) h.tables) : ∃ h', pmap g cr3 fuel h y = some h' ∧
      h'.tables.pml4 = cr3 ∧ Supply g fuel n k h'.tables := by
  obtain ⟨s', run, same, rest⟩ := supply.page
    (if y = Paging.pmapVirtDefault then g h.tables.served else y) Paging.flagsUserPage
  subst root
  have loaded : Paging.pagingLoadPml4 s' h.tables.pml4 = s' := by
    rw [← same]
    rfl
  obtain ⟨v, call⟩ : ∃ v, Paging.pmap g fuel h.tables.pml4 y h.tables = some (v, s') :=
    ⟨_, Option.bind_eq_some_iff.mpr ⟨_, run, congrArg (fun s => some (_, s)) loaded⟩⟩
  exact ⟨{ h with tables := s' }, Option.map_eq_some_iff.mpr ⟨(v, s'), call, rfl⟩, same, rest⟩

/-- So are several of them. -/
theorem mapPages_runs : ∀ {n' : Nat} {h : Heap} (y : Addr), h.tables.pml4 = cr3 →
    Supply g fuel n (n' + k) h.tables → ∃ h', mapPages g cr3 fuel n' h y = some h' := by
  intro n'
  induction n' with
  | zero => exact fun {h} y root supply => ⟨h, rfl⟩
  | succ n' ih =>
    intro h y root supply
    rw [Nat.add_right_comm] at supply
    obtain ⟨h₁, first, root', rest⟩ := pmap_runs y root supply
    obtain ⟨h', more⟩ := ih (y + 0x1000) root' rest
    exact ⟨h', Option.bind_eq_some_iff.mpr ⟨h₁, first, more⟩⟩

/-- The first call, for what the first segment has. -/
theorem malloc_runs (fresh : h.heapInitialized = false) (root : h.tables.pml4 = cr3)
    (supply : Supply g fuel m (256 + k) h.tables) (round : roundUp size = BitVec.ofNat 64 n)
    (pos : 0 < n) (fits : n ≤ 0xfffe0) (deep : 0 < fuel) :
    ∃ r, malloc g cr3 (fuel + 1) h size = some r := by
  obtain ⟨h₀, mapped⟩ := mapPages_runs 0x7f0000000000 root supply
  obtain ⟨h₁, first⟩ : ∃ h₁, heapInitialize g cr3 fuel h 0x7f0000000000 256 = some h₁ :=
    ⟨_, Option.bind_eq_some_iff.mpr ⟨h₀, mapped, rfl⟩⟩
  have lies := initialize_lies first
  have again : malloc g cr3 (fuel + 1) h size = malloc g cr3 (fuel + 1) h₁ size := by
    rw [malloc, malloc, fresh, lies.initialized, Bool.not_false, if_pos rfl, first]
    rfl
  obtain ⟨fuel, rfl⟩ : ∃ k, fuel = k + 1 := ⟨fuel - 1, by omega⟩
  have length : h₁.length (BitVec.ofNat 64 base) = BitVec.ofNat 64 0xfffe0 := lies.length
  have free : h₁.isFree (BitVec.ofNat 64 base) = true := lies.isFree
  rw [again, malloc_succ lies.initialized round pos (by omega), lies.start, mallocLoop,
    free, length]
  split
  · exact ⟨_, rfl⟩
  · next whole =>
    have less : ¬ BitVec.ofNat 64 n < BitVec.ofNat 64 0xfffe0 := fun less => whole ⟨rfl, less⟩
    rw [BitVec.lt_def, BitVec.toNat_ofNat, BitVec.toNat_ofNat] at less
    obtain rfl : n = 0xfffe0 := by omega
    rw [if_pos ⟨rfl, rfl⟩]
    exact ⟨_, rfl⟩

end

/-- A first step. -/
theorem machine_obtains {size : Addr} {n : Nat} (round : roundUp size = BitVec.ofNat 64 n)
    (big : 16 ≤ n) (even : n % 16 = 0) (fits : n ≤ 0xfffe0) (less : size.toNat < 2 ^ 47) :
    ∃ q w, Step spaceFrames (spaceFrames 0) machineWorld (.malloc size) w ∧
      w.live q = some size.toNat := by
  obtain ⟨⟨q, h'⟩, call⟩ :=
    malloc_runs machine_initial.1 rfl (machine_supply (Nat.zero_le (2 ^ 20)))
    round (by omega) fits (by decide)
  obtain ⟨h, first, rest⟩ := malloc_fresh machine_initial.1 call
  have above := base_eq
  have fin := Layout.first_fin
  obtain ⟨rfl, lies⟩ := first.obtains round big even (by omega) (by omega) rest
  have ready : Layout.first.ready n = Layout.first := if_pos ⟨rfl, fits⟩
  have place := Layout.first_place
  rw [ready] at lies call
  have low : h'.heapEnd.toNat ≤ 2 ^ 47 := by
    rw [lies.ends, BitVec.toNat_ofNat, Layout.take_fin]
    omega
  have nonzero : BitVec.ofNat 64 (Layout.first.place + 32) ≠ 0 :=
    ofNat_ne_zero (by omega) (by omega)
  have step : Step spaceFrames (spaceFrames 0) machineWorld (.malloc size)
      ⟨h', grant machineWorld.live (BitVec.ofNat 64 (Layout.first.place + 32)) size.toNat⟩ :=
    ⟨less, ⟨_, Option.map_eq_some_iff.mpr ⟨_, call, rfl⟩⟩, fun _ => low⟩
  refine ⟨BitVec.ofNat 64 (Layout.first.place + 32), _, step, ?_⟩
  rw [grant, if_neg nonzero]
  exact Function.update_self ..

end Skylight.UserHeap

import Skylight.Apps.Prism
import Skylight.Laws.Proc.Keyboard

/-!
# Which keys reach the listeners

A round of `kbd_update` takes the keys that were there when it read the size, and then throws
away what the page holds. A key that comes between its read and its reset is lost; a key that
comes at any other time is delivered once, in its place.
-/

namespace Skylight.Prism

open Skylight.Paging Skylight.Calls

/-- `kbd_update`, left alone, hands over every key that went into the page, in order, and the
page is empty then. -/
def EveryKey (m : Machine) : Prop :=
  ∃ steps, (kbdUpdate^[steps] m).place = .start ∧
    (kbdUpdate^[steps] m).kernel.read16 m.internalBufferSize = 0 ∧
    (kbdUpdate^[steps] m).delivered = m.stored

/-- The page of keys that `kbd_init` got is the one the interrupt writes. -/
structure Shared (m : Machine) : Prop where
  started : m.started = true
  held : m.kernel.currentPid ≠ nobody
  buffer : m.internalBuffer ≠ 0 ∧ IsFrame m.internalBuffer
  same : m.kernel.currentBuffer = m.internalBuffer
  size : m.internalBufferSize = m.internalBuffer + 4094
  sizeSame : m.kernel.currentSize = m.internalBufferSize

/-- What `kbd_init` leaves. -/
structure Start (m : Machine) : Prop extends Shared m where
  empty : m.kernel.read16 m.internalBufferSize = 0
  place : m.place = .start
  nothing : m.delivered = [] ∧ m.stored = []

/-- A key that goes into the page comes while no round is under way. -/
def Timely (m : Machine) : Event → Prop
  | .key _ => Accepts m.kernel → m.place = .start
  | .update => True

/-- The keys in the page from one place to another. -/
def Machine.waiting (m : Machine) (i n : Nat) : List (BitVec 8) :=
  (List.range' i (n - i)).map fun j => m.kernel.bytes (m.internalBuffer + BitVec.ofNat 64 j)

/-- No key is lost so far. -/
def Sound (m : Machine) : Prop :=
  match m.place with
  | .start => ∃ n ≤ 4094, m.kernel.read16 m.internalBufferSize = BitVec.ofNat 16 n ∧
    m.stored = m.delivered ++ m.waiting 0 n
  | .looping n i => i ≤ n ∧ n.toNat ≤ 4094 ∧ m.stored = m.delivered ++ m.waiting i.toNat n.toNat
  | .resetting => m.stored = m.delivered

/-- A key is lost: this round and all later ones deliver too few. -/
def Behind (m : Machine) : Prop :=
  match m.place with
  | .start => m.kernel.read16 m.internalBufferSize = 0 ∧ m.delivered.length < m.stored.length
  | .looping n i => m.delivered.length + (n.toNat - i.toNat) < m.stored.length
  | .resetting => m.delivered.length < m.stored.length

section
variable {m : Machine} {k : Calls.Kernel} {keycode : BitVec 8} {n : Nat} {a x : Addr} {v : BitVec 8}

/-- The size is read back as written. -/
theorem read16_write16 (k : Calls.Kernel) (a : Addr) (v : BitVec 16) :
    (k.write16 a v).read16 a = v := by
  have next : a ≠ a + 1 := by bv_omega
  rw [Calls.Kernel.read16, Calls.Kernel.write16]
  dsimp only
  rw [Function.update_self, Function.update_of_ne next, Function.update_self]
  ext i hi
  rw [BitVec.getElem_append]
  split
  · rw [BitVec.getElem_setWidth]
    exact BitVec.getLsbD_eq_getElem hi
  · rw [BitVec.getElem_setWidth, BitVec.getLsbD_ushiftRight, Nat.add_sub_of_le (by omega)]
    exact BitVec.getLsbD_eq_getElem hi

/-- A key that is refused changes nothing. -/
theorem saveKey_refused (h : ¬ Accepts k) : kbManSaveKey keycode k = k := by
  rw [kbManSaveKey]
  split
  · rfl
  · next there =>
    rw [Accepts, and_iff_right there, not_not] at h
    exact if_pos h

/-- One that is accepted goes to its place, and is counted. -/
theorem saveKey_accepted (h : Accepts k) : (kbManSaveKey keycode k).bytes =
    Function.update (k.write16 k.currentSize (k.read16 k.currentSize + 1)).bytes
      (k.currentBuffer + (k.read16 k.currentSize).setWidth 64) keycode := by
  rw [kbManSaveKey, if_neg h.1]
  dsimp only
  rw [if_neg h.2]
  rfl

/-- A size as an address. -/
theorem ofNat_toNat_setWidth (i : BitVec 16) : i.setWidth 64 = BitVec.ofNat 64 i.toNat := by
  apply BitVec.eq_of_toNat_eq
  rw [BitVec.toNat_setWidth, BitVec.toNat_ofNat]

/-- The size is in two bytes. -/
theorem read16_congr {k k' : Calls.Kernel} (low : k'.bytes a = k.bytes a)
    (high : k'.bytes (a + 1) = k.bytes (a + 1)) : k'.read16 a = k.read16 a := by
  rw [Calls.Kernel.read16, Calls.Kernel.read16, low, high]

/-- The second of them is the last of the page. -/
theorem size_next (buffer : Addr) : buffer + 4094 + 1 = buffer + BitVec.ofNat 64 4095 := by
  rw [BitVec.add_assoc]
  rfl

/-- The key goes behind the `n` that are there, and is counted. -/
theorem saveKey_bytes (accepted : Accepts k) (size : k.currentSize = k.currentBuffer + 4094)
    (value : (k.read16 k.currentSize).toNat = n) :
    (kbManSaveKey keycode k).read16 k.currentSize = BitVec.ofNat 16 (n + 1) ∧
    (kbManSaveKey keycode k).bytes (k.currentBuffer + BitVec.ofNat 64 n) = keycode ∧
    ∀ j < n, (kbManSaveKey keycode k).bytes (k.currentBuffer + BitVec.ofNat 64 j) =
      k.bytes (k.currentBuffer + BitVec.ofNat 64 j) := by
  have room : n < 4094 := by
    have less := accepted.2
    rw [value] at less
    omega
  have bytes := @saveKey_accepted _ keycode accepted
  rw [ofNat_toNat_setWidth, value] at bytes
  have low : k.currentSize ≠ k.currentBuffer + BitVec.ofNat 64 n := by
    rw [size]
    exact offset_ne (m := 4094) (by omega) (by omega) (by omega)
  have high : k.currentSize + 1 ≠ k.currentBuffer + BitVec.ofNat 64 n := by
    rw [size, size_next]
    exact offset_ne (by omega) (by omega) (by omega)
  refine ⟨?_, ?_, fun j lt => ?_⟩
  · rw [read16_congr (k := k.write16 k.currentSize (k.read16 k.currentSize + 1)), read16_write16]
    · apply BitVec.eq_of_toNat_eq
      rw [BitVec.toNat_add, value, BitVec.toNat_ofNat]
      rfl
    · rw [bytes, Function.update_of_ne low]
    · rw [bytes, Function.update_of_ne high]
  · rw [bytes, Function.update_self]
  · rw [bytes, Function.update_of_ne (offset_ne (by omega) (by omega) (by omega)),
      Calls.Kernel.write16]
    dsimp only
    rw [size, size_next, Function.update_of_ne (offset_ne (by omega) (by omega) (by omega))]
    apply Function.update_of_ne
    exact offset_ne (n := 4094) (by omega) (by omega) (by omega)

/-- Every keystroke leaves the page where it is. -/
theorem Shared.saveKey (h : Shared m) : Shared (saveKey keycode m) := by
  obtain ⟨started, held, buffer, same, size, sizeSame⟩ := h
  have fields := saveKey_fields keycode m.kernel
  constructor
  · exact started
  · show (kbManSaveKey keycode m.kernel).currentPid ≠ nobody
    rw [fields]
    exact held
  · exact buffer
  · show (kbManSaveKey keycode m.kernel).currentBuffer = _
    rw [fields]
    exact same
  · exact size
  · show (kbManSaveKey keycode m.kernel).currentSize = _
    rw [fields]
    exact sizeSame

/-- Every round leaves the page where it is. -/
theorem Shared.kbdUpdate (h : Shared m) : Shared (kbdUpdate m) := by
  obtain ⟨started, held, buffer, same, size, sizeSame⟩ := h
  rw [Prism.kbdUpdate]
  split
  · split
    · exact ⟨started, held, buffer, same, size, sizeSame⟩
    · dsimp only
      split <;> exact ⟨started, held, buffer, same, size, sizeSame⟩
  · split <;> exact ⟨started, held, buffer, same, size, sizeSame⟩
  · exact ⟨started, held, buffer, same, size, sizeSame⟩

/-- And so does every event. -/
theorem Shared.step (h : Shared m) (e : Event) : Shared (m.step e) := by
  cases e with
  | key keycode => exact h.saveKey
  | update => exact h.kbdUpdate

/-- `kbd_update` puts nothing into the page. -/
theorem kbdUpdate_stored (m : Machine) :
    (kbdUpdate m).stored = m.stored ∧ (kbdUpdate m).internalBufferSize = m.internalBufferSize := by
  rw [kbdUpdate]
  split
  · split
    · exact ⟨rfl, rfl⟩
    · dsimp only
      split <;> exact ⟨rfl, rfl⟩
  · split <;> exact ⟨rfl, rfl⟩
  · exact ⟨rfl, rfl⟩

/-- The first key that waits, and the others. -/
theorem waiting_cons {i n : Nat} (h : i < n) : m.waiting i n =
    m.kernel.bytes (m.internalBuffer + BitVec.ofNat 64 i) :: m.waiting (i + 1) n := by
  rw [Machine.waiting, Machine.waiting, show n - i = n - (i + 1) + 1 by omega, List.range'_succ,
    List.map_cons]

/-- No key waits behind the last. -/
theorem waiting_self (m : Machine) (n : Nat) : m.waiting n n = [] := by
  rw [Machine.waiting, Nat.sub_self]
  rfl

/-- What a round does with the next key. -/
theorem Sound.kbdUpdate (shared : Shared m) (h : Sound m) : Sound (kbdUpdate m) := by
  rw [Prism.kbdUpdate]
  split
  · next at_start =>
    rw [shared.started]
    simp only [Bool.not_true, Bool.false_eq_true, if_false]
    split
    · exact h
    · rw [Sound, at_start] at h
      obtain ⟨n, le, size, stored⟩ := h
      have value : (m.kernel.read16 m.internalBufferSize).toNat = n := by
        rw [size, BitVec.toNat_ofNat]
        omega
      refine ⟨Nat.zero_le _, ?_, ?_⟩
      · rw [value]
        exact le
      · rw [value]
        exact stored
  · next n i at_loop =>
    rw [Sound, at_loop] at h
    obtain ⟨le, full, stored⟩ := h
    split
    · next lt =>
      have below : i.toNat < n.toNat := lt
      have succ : (i + 1).toNat = i.toNat + 1 := by
        rw [BitVec.toNat_add]
        show (i.toNat + 1) % 65536 = _
        omega
      refine ⟨?_, full, ?_⟩
      · rw [BitVec.le_def, succ]
        exact below
      · show m.stored = _ ++ [_] ++ _
        rw [succ, stored, waiting_cons below, ofNat_toNat_setWidth, List.append_assoc]
        rfl
    · next done =>
      have same : i = n := BitVec.le_antisymm le (BitVec.not_lt.mp done)
      rw [same, waiting_self, List.append_nil] at stored
      exact stored
  · next at_reset =>
    rw [Sound, at_reset] at h
    refine ⟨0, Nat.zero_le _, read16_write16 _ _ _, ?_⟩
    rw [waiting_self, List.append_nil]
    exact h

/-- A key that comes while no round is under way is put behind the others. -/
theorem Sound.saveKey (shared : Shared m) (h : Sound m)
    (timely : Accepts m.kernel → m.place = .start) : Sound (saveKey keycode m) := by
  by_cases accepted : Accepts m.kernel
  · have at_start := timely accepted
    rw [Sound, at_start] at h
    obtain ⟨n, le, size, stored⟩ := h
    obtain ⟨-, -, -, same, place, sizeSame⟩ := shared
    have room := accepted.2
    rw [sizeSame] at room
    have value : (m.kernel.read16 m.internalBufferSize).toNat = n := by
      rw [size, BitVec.toNat_ofNat]
      omega
    obtain ⟨counted, last, others⟩ := @saveKey_bytes _ keycode n accepted
      (by rw [same, sizeSame, place]) (by rw [sizeSame, value])
    rw [sizeSame] at counted
    rw [same] at last others
    have keys : (Prism.saveKey keycode m).waiting 0 (n + 1) = m.waiting 0 n ++ [keycode] := by
      rw [Machine.waiting, Machine.waiting, Nat.sub_zero, Nat.sub_zero, List.range'_concat,
        List.map_append, List.map_singleton]
      congr 1
      · apply List.map_congr_left
        intro j mem
        exact others j (by simpa using mem)
      · rw [Nat.one_mul, Nat.zero_add]
        exact congrArg ([·]) last
    rw [Sound, show (Prism.saveKey keycode m).place = .start from at_start]
    refine ⟨n + 1, by omega, counted, ?_⟩
    rw [keys, ← List.append_assoc]
    show (if Accepts m.kernel then m.stored ++ [keycode] else m.stored) = _
    rw [if_pos accepted, stored]
    rfl
  · rw [Prism.saveKey, saveKey_refused accepted, if_neg accepted]
    exact h

/-- A key that comes in a round is never delivered. -/
theorem Sound.behind (h : Sound m) (accepted : Accepts m.kernel) (late : m.place ≠ .start) :
    Behind (Prism.saveKey keycode m) := by
  have more : (Prism.saveKey keycode m).stored = m.stored ++ [keycode] := if_pos accepted
  rw [Sound] at h
  rw [Behind, show (Prism.saveKey keycode m).place = m.place from rfl, more, List.length_append,
    show (Prism.saveKey keycode m).delivered = m.delivered from rfl]
  split at h
  · next at_start => exact absurd at_start late
  · next n i at_loop =>
    show m.delivered.length + (n.toNat - i.toNat) < m.stored.length + 1
    rw [h.2.2, List.length_append, Machine.waiting, List.length_map, List.length_range']
    exact Nat.lt_succ_self _
  · next at_reset =>
    show m.delivered.length < m.stored.length + 1
    rw [h]
    exact Nat.lt_succ_self _

/-- A round does not bring a lost key back. -/
theorem Behind.kbdUpdate (h : Behind m) : Behind (kbdUpdate m) := by
  rw [Behind] at h
  rw [Prism.kbdUpdate]
  split
  · next at_start =>
    rw [at_start] at h
    split
    · rw [Behind, at_start]
      exact h
    · rw [if_pos h.1, Behind, at_start]
      exact h
  · next n i at_loop =>
    rw [at_loop] at h
    split
    · next lt =>
      have below : i.toNat < n.toNat := lt
      have succ : (i + 1).toNat = i.toNat + 1 := by
        rw [BitVec.toNat_add]
        show (i.toNat + 1) % 65536 = _
        omega
      show (m.delivered ++ [_]).length + (n.toNat - (i + 1).toNat) < m.stored.length
      rw [List.length_append, succ, List.length_singleton]
      dsimp only at h
      omega
    · exact Nat.lt_of_le_of_lt (Nat.le_add_right _ _) h
  · next at_reset =>
    rw [at_reset] at h
    exact ⟨read16_write16 _ _ _, h⟩

/-- A lost key is not handed over. -/
theorem Behind.not_everyKey (h : Behind m) : ¬ EveryKey m := by
  rintro ⟨steps, at_start, -, all⟩
  have fewer : ∀ steps (m : Machine), Behind m →
      Behind (Prism.kbdUpdate^[steps] m) ∧ (Prism.kbdUpdate^[steps] m).stored = m.stored := by
    intro steps
    induction steps with
    | zero => exact fun m h => ⟨h, rfl⟩
    | succ steps ih =>
      intro m h
      rw [Function.iterate_succ_apply]
      obtain ⟨behind, stored⟩ := ih _ h.kbdUpdate
      exact ⟨behind, stored.trans (kbdUpdate_stored m).1⟩
  obtain ⟨behind, stored⟩ := fewer steps m h
  rw [Behind, at_start, stored, all] at behind
  exact absurd behind.2 (Nat.lt_irrefl _)

/-- If all is handed over after a round, it is from before it. -/
theorem EveryKey.of_kbdUpdate (h : EveryKey (kbdUpdate m)) : EveryKey m := by
  obtain ⟨steps, at_start, empty, all⟩ := h
  rw [(kbdUpdate_stored m).1] at all
  rw [(kbdUpdate_stored m).2] at empty
  exact ⟨steps + 1, at_start, empty, all⟩

/-- A round that is under way comes to its end. -/
theorem Sound.everyKey (shared : Shared m) (h : Sound m) : EveryKey m := by
  have reset (m : Machine) (shared : Shared m) (h : Sound m) (at_reset : m.place = .resetting) :
      EveryKey m := by
    have sound := h.kbdUpdate shared
    rw [Sound, at_reset] at h
    apply EveryKey.of_kbdUpdate
    rw [Prism.kbdUpdate, at_reset]
    exact ⟨0, rfl, read16_write16 _ _ _, h.symm⟩
  have loop (left : Nat) : ∀ (m : Machine) (n i : BitVec 16), Shared m → Sound m →
      m.place = .looping n i → n.toNat - i.toNat = left → EveryKey m := by
    -- Induction on the keys that this round has still to hand over.
    induction left with
    | zero =>
      intro m n i shared h at_loop none
      apply EveryKey.of_kbdUpdate
      apply reset _ shared.kbdUpdate (h.kbdUpdate shared)
      rw [Prism.kbdUpdate, at_loop]
      dsimp only
      rw [if_neg]
      rw [BitVec.lt_def]
      omega
    | succ left ih =>
      intro m n i shared h at_loop some
      have lt : i < n := by
        rw [BitVec.lt_def]
        omega
      apply EveryKey.of_kbdUpdate
      apply ih _ n (i + 1) shared.kbdUpdate (h.kbdUpdate shared)
      · rw [Prism.kbdUpdate, at_loop]
        dsimp only
        rw [if_pos lt]
      · bv_omega
  cases place : m.place with
  | start =>
    by_cases none : m.kernel.read16 m.internalBufferSize = 0
    · rw [Sound, place] at h
      obtain ⟨n, le, size, stored⟩ := h
      have zero : n = 0 := by
        have value := congrArg BitVec.toNat (size.symm.trans none)
        rw [BitVec.toNat_ofNat] at value
        change n % 65536 = 0 at value
        omega
      rw [zero, waiting_self, List.append_nil] at stored
      exact ⟨0, place, none, stored.symm⟩
    · apply EveryKey.of_kbdUpdate
      apply loop _ _ _ _ shared.kbdUpdate (h.kbdUpdate shared) _ rfl
      · exact m.kernel.read16 m.internalBufferSize
      · exact 0
      · rw [Prism.kbdUpdate, place]
        simp only [shared.started, Bool.not_true, Bool.false_eq_true, if_false, if_neg none]
  | looping n i => exact loop _ m n i shared h place rfl
  | resetting => exact reset m shared h place

/-- Events in time lose nothing. -/
theorem Sound.step (shared : Shared m) (h : Sound m) {e : Event} (timely : Timely m e) :
    Sound (m.step e) := by
  cases e with
  | key keycode => exact h.saveKey shared timely
  | update => exact h.kbdUpdate shared

/-- An event loses nothing just when it is in time. -/
theorem Sound.everyKey_step_iff (shared : Shared m) (h : Sound m) (e : Event) :
    EveryKey (m.step e) ↔ Timely m e := by
  constructor
  · intro every
    cases e with
    | key keycode =>
      intro accepted
      by_contra late
      exact (h.behind accepted late).not_everyKey every
    | update => trivial
  · intro timely
    exact (h.step shared timely).everyKey (shared.step e)

/-- At first nothing is lost. -/
theorem Start.sound (h : Start m) : Sound m := by
  rw [Sound, h.place]
  refine ⟨0, Nat.zero_le _, h.empty, ?_⟩
  rw [h.nothing.1, h.nothing.2]
  rfl

/-- In a run without late keys none is lost. -/
theorem Start.run (start : Start m) (events : List Event)
    (timely : ∀ es e, es ++ [e] <+: events → Timely (m.run es) e) :
    Shared (m.run events) ∧ Sound (m.run events) := by
  induction events using List.reverseRecOn with
  | nil => exact ⟨start.toShared, start.sound⟩
  | append_singleton events e ih =>
    obtain ⟨shared, sound⟩ := ih fun es e' le => timely es e' (le.trans (List.prefix_append _ _))
    rw [Machine.run, List.foldl_append]
    exact ⟨shared.step e, sound.step shared (timely events e (List.prefix_refl _))⟩

/-- Every key reaches the listeners, at all times of a run, just when no key goes into the page
while a round is under way. -/
theorem keys_delivered_iff (start : Start m) (events : List Event) :
    (∀ es, es <+: events → EveryKey (m.run es)) ↔
      ∀ es e, es ++ [e] <+: events → Timely (m.run es) e := by
  -- From the back: only the last event is new, and what is asked of the others is asked of a
  -- shorter run.
  induction events using List.reverseRecOn with
  | nil =>
    constructor
    · intro _ es e le
      exact absurd (List.prefix_nil.mp le) (by simp)
    · rintro - es le
      rw [List.prefix_nil.mp le]
      exact start.sound.everyKey start.toShared
  | append_singleton events e ih =>
    constructor
    · intro every es e' le
      have timely := ih.mp fun es le => every es (le.trans (List.prefix_append _ _))
      rcases List.prefix_concat_iff.mp le with same | shorter
      · obtain ⟨rfl, one⟩ := List.append_inj' same rfl
        obtain ⟨shared, sound⟩ := start.run es timely
        rw [List.singleton_inj.mp one, ← sound.everyKey_step_iff shared]
        have last := every _ (List.prefix_refl _)
        rw [Machine.run, List.foldl_append] at last
        exact last
      · exact timely es e' shorter
    · intro timely es le
      have before := fun es e' (le : es ++ [e'] <+: events) =>
        timely es e' (le.trans (List.prefix_append _ [e]))
      rcases List.prefix_concat_iff.mp le with same | shorter
      · obtain ⟨shared, sound⟩ := start.run events before
        rw [same, Machine.run, List.foldl_append]
        exact (sound.everyKey_step_iff shared e).mpr (timely events e (List.prefix_refl _))
      · exact ih.mpr before es shorter

end

/-- Prism with an empty page. -/
def emptyPage : Machine where
  kernel := ⟨machineRoot, nobody, 0x5000, 0, 0x5ffe, fun _ => 0⟩
  started := true
  internalBuffer := 0x5000
  internalBufferSize := 0x5ffe
  place := .start
  modifiers := ⟨false, false, false⟩
  delivered := []
  stored := []

theorem emptyPage_start : Start emptyPage where
  started := rfl
  held := by decide
  buffer := by decide
  same := rfl
  size := by decide
  sizeSame := rfl
  empty := by decide
  place := rfl
  nothing := ⟨rfl, rfl⟩

/-- The first key is handed over. -/
theorem keys_delivered_first : EveryKey (emptyPage.run [.key 0x0E]) := by
  apply (keys_delivered_iff emptyPage_start [.key 0x0E]).mpr _ _ (List.prefix_refl _)
  intro es e le
  rcases List.prefix_concat_iff.mp (show es ++ [e] <+: [] ++ [.key 0x0E] from le) with same | none
  · obtain ⟨rfl, one⟩ := List.append_inj' same rfl
    rw [List.singleton_inj.mp one]
    exact fun _ => rfl
  · exact absurd (List.prefix_nil.mp none) (by simp)

/-- A key comes right after `kbd_update` has read that there is one. -/
theorem keys_not_always_delivered : ¬ ∀ (m : Machine) (events : List Event), Start m →
    EveryKey (m.run events) := by
  intro all
  have place : (emptyPage.run [.key 0x0E, .update, .key 0x0F]).place = .looping 1 0 := by
    decide +kernel
  have fewer : (emptyPage.run [.key 0x0E, .update, .key 0x0F]).delivered.length + 1 <
      (emptyPage.run [.key 0x0E, .update, .key 0x0F]).stored.length := by decide +kernel
  apply Behind.not_everyKey _ (all emptyPage [.key 0x0E, .update, .key 0x0F] emptyPage_start)
  rw [Behind, place]
  exact fewer

end Skylight.Prism

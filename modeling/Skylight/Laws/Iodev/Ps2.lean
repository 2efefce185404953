import Mathlib.Algebra.Group.Nat.Defs
import Skylight.Iodev.Ps2
import Skylight.Lib.Framing

/-!
# Scan codes in a stream of bytes

The codes of the table are words for `ps2_kbd_needs_next_byte`, so the handler takes a stream of
them apart, whatever comes after what. On any stream at all it keeps at most 7 bytes.

`scancodes_decoded` has both: every sequence of codes of the table registers just their keys, in
order, and leaves the buffer empty; every stream of bytes, whatever they are, stays within the
buffer. Taking a stream apart is `Lib.Framing`, at the test of the driver. Bytes that the
controller sends in answer to commands are not in the streams.
-/

namespace Skylight.Ps2

open Skylight.Calls

/-- The bytes of a scan code, the first one in front. -/
def scancodeBytes (code : BitVec 64) : List (BitVec 8) := go 8 code.toNat
where
  go : Nat → Nat → List (BitVec 8)
    | 0, _ => []
    | k + 1, n => if n = 0 then [] else go k (n / 256) ++ [BitVec.ofNat 8 n]

/-- `ps2_kbd_needs_next_byte` of what was collected. -/
def needsMore (w : List (BitVec 8)) : Bool := needsNextByte (fun i => w.getD i 0) w.length

/-- The keycode of what was collected. -/
def keycodeOf (w : List (BitVec 8)) : BitVec 8 :=
  translateKeycode (renderScancode (fun i => w.getD i 0) w.length)

/-- What is in the buffer. -/
def Driver.collected (m : Driver) : List (BitVec 8) := (List.range m.pos.toNat).map m.buffer

/-- The driver takes keys. -/
structure Listening (m : Driver) : Prop where
  valid : validateState m = true
  ready : m.commanding = false

/-- Nothing is in the buffer. -/
def Empty (m : Driver) : Prop := m.pos = 0 ∧ ∀ i < 8, m.buffer i = 0

/-- The bytes of a code, as a number of any size. -/
def codeNumber (scancode : Nat → BitVec 8) (bytes : Nat) : Nat :=
  (List.range bytes).foldl (fun n i => n * 256 + (scancode i).toNat) 0

/-- An interrupt keeps to the buffer, and no code is cut when it is rendered. -/
structure Within (m : Driver) (byte : BitVec 8) : Prop where
  index : m.pos.toNat ≤ 7
  outside : ∀ i ≥ 8, (irqHandler m byte).buffer i = m.buffer i
  exact : let buffer := Function.update m.buffer m.pos.toNat byte
    (renderScancode buffer (m.pos + 1).toNat).toNat = codeNumber buffer (m.pos + 1).toNat

section
variable {m : Driver} {byte : BitVec 8} {f f' : Nat → BitVec 8} {n : Nat}

/-- Only the bytes collected matter. -/
theorem needsNextByte_congr (same : ∀ i < n, f i = f' i) :
    needsNextByte f n = needsNextByte f' n := by
  match n with
  | 0 => rfl
  | 1 => rw [needsNextByte, needsNextByte, same 0 (by omega)]
  | 2 => rw [needsNextByte, needsNextByte, same 0 (by omega), same 1 (by omega)]
  | 3 => rw [needsNextByte, needsNextByte, same 2 (by omega)]
  | 4 => rw [needsNextByte, needsNextByte, same 3 (by omega)]
  | 5 => rw [needsNextByte, needsNextByte, same 4 (by omega)]
  | 6 => rw [needsNextByte, needsNextByte, same 5 (by omega)]
  | 7 => rw [needsNextByte, needsNextByte, same 6 (by omega)]
  | _ + 8 => rfl

/-- A fold over the first numbers, with the same steps. -/
theorem foldl_range_congr {β : Type*} {g g' : β → Nat → β} (same : ∀ b, ∀ i < n, g b i = g' b i)
    (b : β) : (List.range n).foldl g b = (List.range n).foldl g' b := by
  induction n with
  | zero => rfl
  | succ n ih =>
    rw [List.range_succ, List.foldl_append, List.foldl_append]
    rw [ih fun b i lt => same b i (Nat.lt_succ_of_lt lt)]
    exact same _ n (Nat.lt_succ_self n)

/-- A byte that was collected. -/
theorem getD_collected {i : Nat} (lt : i < n) : ((List.range n).map f).getD i 0 = f i := by
  rw [List.getD_eq_getElem?_getD, List.getElem?_map, List.getElem?_range lt]
  rfl

/-- The test, on a list. -/
theorem needsMore_range : needsMore ((List.range n).map f) = needsNextByte f n := by
  rw [needsMore, List.length_map, List.length_range]
  exact needsNextByte_congr fun i lt => getD_collected lt

/-- And the keycode. -/
theorem keycodeOf_range :
    keycodeOf ((List.range n).map f) = translateKeycode (renderScancode f n) := by
  rw [keycodeOf, List.length_map, List.length_range]
  congr 1
  apply foldl_range_congr
  intro b i lt
  dsimp only
  rw [getD_collected lt]

/-- Nothing of 8 bytes needs more. -/
theorem needsMore_full {w : List (BitVec 8)} (length : w.length = 8) : needsMore w = false := by
  rw [needsMore, length]
  rfl

/-! ### One interrupt -/

/-- One byte more. -/
theorem range_update (f : Nat → BitVec 8) (n : Nat) (byte : BitVec 8) :
    (List.range (n + 1)).map (Function.update f n byte) = (List.range n).map f ++ [byte] := by
  rw [List.range_succ, List.map_append, List.map_singleton, Function.update_self]
  congr 1
  apply List.map_congr_left
  intro i mem
  exact Function.update_of_ne (Nat.ne_of_lt (List.mem_range.mp mem)) _ _

/-- There are as many as the index says. -/
theorem collected_length (m : Driver) : m.collected.length = m.pos.toNat := by
  rw [Driver.collected, List.length_map, List.length_range]

/-- The index does not wrap. -/
theorem pos_succ (index : m.pos.toNat ≤ 7) : (m.pos + 1).toNat = m.pos.toNat + 1 := by
  rw [BitVec.toNat_add]
  show (m.pos.toNat + 1) % 256 = _
  omega

/-- A code that is whole, if it stands for a key. -/
theorem handleScancode_eq (some : n ≠ 0) : handleScancode f n m =
    let keycode := translateKeycode (renderScancode f n)
    { m with
      kernel := (hidRegisterKeystroke keycode m.kernel).2
      registered := if keycode = 0 then m.registered else m.registered ++ [keycode] } := by
  rw [handleScancode, if_neg some]
  dsimp only
  rw [hidRegisterKeystroke]
  by_cases none : translateKeycode (renderScancode f n) = 0
  · rw [if_pos none, if_pos none]
    rfl
  · rw [if_neg none, if_neg none]
    rfl

/-- A driver that listens takes the byte. -/
theorem Listening.taken (h : Listening m) : ¬ (!validateState m || m.commanding) = true := by
  rw [h.valid, h.ready]
  decide

/-- An interrupt while more is needed. -/
theorem irqHandler_more (listening : Listening m) (index : m.pos.toNat ≤ 7)
    (more : needsMore (m.collected ++ [byte]) = true) : irqHandler m byte =
      { m with buffer := Function.update m.buffer m.pos.toNat byte, pos := m.pos + 1 } := by
  have next : needsNextByte (Function.update m.buffer m.pos.toNat byte) (m.pos + 1).toNat =
      true := by
    rw [← needsMore_range, pos_succ index, range_update]
    exact more
  rw [irqHandler, if_neg listening.taken]
  dsimp only
  rw [next]
  rfl

/-- An interrupt that makes a code whole. -/
theorem irqHandler_whole (listening : Listening m) (index : m.pos.toNat ≤ 7)
    (whole : needsMore (m.collected ++ [byte]) = false) : irqHandler m byte =
      let keycode := keycodeOf (m.collected ++ [byte])
      clearScanBuffer { m with
        buffer := Function.update m.buffer m.pos.toNat byte
        kernel := (hidRegisterKeystroke keycode m.kernel).2
        registered := if keycode = 0 then m.registered else m.registered ++ [keycode] } := by
  have next : needsNextByte (Function.update m.buffer m.pos.toNat byte) (m.pos + 1).toNat =
      false := by
    rw [← needsMore_range, pos_succ index, range_update]
    exact whole
  have keycode : translateKeycode (renderScancode (Function.update m.buffer m.pos.toNat byte)
      (m.pos + 1).toNat) = keycodeOf (m.collected ++ [byte]) := by
    rw [← keycodeOf_range, pos_succ index, range_update]
    rfl
  rw [irqHandler, if_neg listening.taken]
  dsimp only
  rw [next, handleScancode_eq (by rw [pos_succ index]; exact Nat.succ_ne_zero _), keycode]
  rfl

/-! ### All interrupts of a stream -/

/-- The driver and the words of the stream so far. -/
structure Follows (m₀ m : Driver) (s : List (BitVec 8) × List (List (BitVec 8))) : Prop where
  listening : Listening m
  index : m.pos.toNat ≤ 7
  collected : m.collected = s.1
  clear : s.1 = [] → ∀ i < 8, m.buffer i = 0
  registered : m.registered = m₀.registered ++ (s.2.map keycodeOf).filter (· ≠ 0)
  kernel : m.kernel = (s.2.map keycodeOf).foldl (fun k c => (hidRegisterKeystroke c k).2) m₀.kernel

/-- A cleared buffer has no bytes. -/
theorem clear_collected (m : Driver) : (clearScanBuffer m).collected = [] := rfl

/-- The index stays below the size of the buffer. -/
theorem more_index (index : m.pos.toNat ≤ 7) (more : needsMore (m.collected ++ [byte]) = true) :
    (m.pos + 1).toNat ≤ 7 := by
  rw [pos_succ index]
  by_contra full
  rw [needsMore_full (by rw [List.length_append, collected_length, List.length_singleton]; omega)]
    at more
  cases more

/-- One interrupt is one push. -/
theorem Follows.irqHandler {m₀ : Driver} {s : List (BitVec 8) × List (List (BitVec 8))}
    (h : Follows m₀ m s) (byte : BitVec 8) :
    Follows m₀ (irqHandler m byte) (Framing.push needsMore s byte) := by
  obtain ⟨listening, index, collected, clear, registered, kernel⟩ := h
  cases whole : needsMore (m.collected ++ [byte]) with
  | true =>
    rw [irqHandler_more listening index whole]
    rw [collected] at whole
    rw [Framing.push_more whole]
    refine ⟨⟨listening.valid, listening.ready⟩, ?_, ?_, fun none => ?_, registered, kernel⟩
    · rw [← collected] at whole
      exact more_index index whole
    · rw [Driver.collected, pos_succ index, range_update, ← collected]
      rfl
    · exact absurd none (by simp)
  | false =>
    rw [irqHandler_whole listening index whole, collected]
    rw [collected] at whole
    rw [Framing.push_whole whole]
    refine ⟨⟨listening.valid, listening.ready⟩, Nat.zero_le _, clear_collected _, fun _ i lt => ?_,
      ?_, ?_⟩
    · exact if_pos lt
    · show (if _ then _ else _) = _
      rw [List.map_append, List.filter_append, List.map_singleton, ← List.append_assoc,
        ← registered]
      by_cases none : keycodeOf (s.1 ++ [byte]) = 0
      · rw [if_pos none, List.filter_singleton, none]
        exact (List.append_nil _).symm
      · rw [if_neg none, List.filter_singleton, decide_eq_true none]
        rfl
    · show (hidRegisterKeystroke _ m.kernel).2 = _
      rw [List.map_append, List.foldl_append, ← kernel]
      rfl

/-- And a stream is all of them. -/
theorem Follows.run {m₀ : Driver} {s : List (BitVec 8) × List (List (BitVec 8))}
    (h : Follows m₀ m s) (stream : List (BitVec 8)) :
    Follows m₀ (m.run stream) (stream.foldl (Framing.push needsMore) s) := by
  induction stream generalizing m s with
  | nil => exact h
  | cons byte stream ih => exact ih (h.irqHandler byte)

/-! ### The table -/

/-- Every code of the table is whole, and no part of it before its end is. -/
theorem scancodes_words : ∀ row ∈ scancodes, Framing.Word needsMore (scancodeBytes row.1) ∧
    renderScancode (fun i => (scancodeBytes row.1).getD i 0) (scancodeBytes row.1).length = row.1 ∧
    row.2 ≠ 0 := by
  have all : scancodes.all (fun row => decide (Framing.Word needsMore (scancodeBytes row.1) ∧
      renderScancode (fun i => (scancodeBytes row.1).getD i 0)
        (scancodeBytes row.1).length = row.1 ∧
      row.2 ≠ 0)) = true := by decide +kernel
  intro row mem
  exact of_decide_eq_true (List.all_eq_true.mp all row mem)

/-- The cases of the `switch` are in order. -/
theorem scancodes_sorted : scancodes.Pairwise fun r r' => r.1.toNat < r'.1.toNat := by
  have chain : (scancodes.map fun row => row.1.toNat).IsChain (· < ·) := by decide +kernel
  exact List.pairwise_map.mp (List.isChain_iff_pairwise.mp chain)

/-- Every row of the table is found. -/
theorem translateKeycode_row {row : BitVec 64 × BitVec 8} (mem : row ∈ scancodes) :
    translateKeycode row.1 = row.2 := by
  obtain ⟨before, after, split⟩ := List.append_of_mem mem
  have found : scancodes.lookup row.1 = some row.2 := by
    apply List.lookup_eq_some_iff.mpr
    refine ⟨before, after, split, fun r hr => ?_⟩
    have sorted := scancodes_sorted
    rw [split, List.pairwise_append] at sorted
    have lt := sorted.2.2 r hr row List.mem_cons_self
    exact bne_iff_ne.mpr fun same => Nat.lt_irrefl _ (same ▸ lt)
  rw [translateKeycode, found]
  rfl

/-- Every code has its key. -/
theorem keycodeOf_row {row : BitVec 64 × BitVec 8} (mem : row ∈ scancodes) :
    keycodeOf (scancodeBytes row.1) = row.2 := by
  rw [keycodeOf, (scancodes_words row mem).2.1, translateKeycode_row mem]

/-! ### Any stream -/

/-- The index stays below 8. -/
theorem irqHandler_index (index : m.pos.toNat ≤ 7) (byte : BitVec 8) :
    (irqHandler m byte).pos.toNat ≤ 7 := by
  by_cases taken : (!validateState m || m.commanding) = true
  · rw [irqHandler, if_pos taken]
    exact index
  · have listening : Listening m := by
      rw [Bool.or_eq_true, not_or, Bool.not_eq_true, Bool.not_eq_true, Bool.not_eq_false'] at taken
      exact ⟨taken.1, taken.2⟩
    cases whole : needsMore (m.collected ++ [byte]) with
    | true =>
      rw [irqHandler_more listening index whole]
      exact more_index index whole
    | false =>
      rw [irqHandler_whole listening index whole]
      exact Nat.zero_le _

/-- On every stream. -/
theorem run_index (index : m.pos.toNat ≤ 7) (stream : List (BitVec 8)) :
    (m.run stream).pos.toNat ≤ 7 := by
  induction stream generalizing m with
  | nil => exact index
  | cons byte stream ih => exact ih (irqHandler_index index byte)

/-- Nothing behind the buffer is written. -/
theorem irqHandler_outside (index : m.pos.toNat ≤ 7) (byte : BitVec 8) {i : Nat} (far : i ≥ 8) :
    (irqHandler m byte).buffer i = m.buffer i := by
  have other : i ≠ m.pos.toNat := by omega
  rw [irqHandler]
  split
  · rfl
  · dsimp only
    split
    · show (if i < 8 then _ else (handleScancode _ _ _).buffer i) = _
      rw [if_neg (Nat.not_lt.mpr far), handleScancode]
      split <;> exact Function.update_of_ne other _ _
    · exact Function.update_of_ne other _ _

/-- Up to 8 bytes fit into a rendered code. -/
theorem renderScancode_exact (f : Nat → BitVec 8) (le : n ≤ 8) :
    (renderScancode f n).toNat = codeNumber f n ∧ codeNumber f n < 256 ^ n := by
  induction n with
  | zero => exact ⟨rfl, Nat.one_pos⟩
  | succ n ih =>
    obtain ⟨exact, lt⟩ := ih (Nat.le_of_succ_le le)
    have step : codeNumber f (n + 1) = codeNumber f n * 256 + (f n).toNat := by
      rw [codeNumber, List.range_succ, List.foldl_append]
      rfl
    have rendered : renderScancode f (n + 1) = renderScancode f n <<< 8 ||| (f n).setWidth 64 := by
      rw [renderScancode, List.range_succ, List.foldl_append]
      rfl
    have small : codeNumber f n < 256 ^ 7 :=
      Nat.lt_of_lt_of_le lt (Nat.pow_le_pow_right (by omega) (by omega))
    have byte := (f n).isLt
    constructor
    · rw [rendered, BitVec.toNat_or, BitVec.toNat_shiftLeft, exact, BitVec.toNat_setWidth, step]
      rw [Nat.mod_eq_of_lt (by rw [Nat.shiftLeft_eq]; omega), Nat.mod_eq_of_lt (by omega)]
      rw [← Nat.shiftLeft_add_eq_or_of_lt byte, Nat.shiftLeft_eq]
    · rw [step, Nat.pow_succ]
      omega

/-- On every stream the handler keeps to its buffer. -/
theorem run_within (empty : m.pos = 0) (stream : List (BitVec 8)) (byte : BitVec 8) :
    Within (m.run stream) byte := by
  have index : (m.run stream).pos.toNat ≤ 7 := by
    apply run_index
    rw [empty]
    decide
  refine ⟨index, fun i far => irqHandler_outside index byte far, ?_⟩
  apply (renderScancode_exact _ _).1
  rw [pos_succ index]
  omega

/-- A stream of codes of the table registers their keys and leaves nothing behind; and no stream
goes past the buffer. -/
theorem scancodes_decoded :
    (∀ m : Driver, Listening m → Empty m → ∀ rows : List (BitVec 64 × BitVec 8),
      (∀ row ∈ rows, row ∈ scancodes) →
      let m' := m.run (rows.flatMap fun row => scancodeBytes row.1)
      Empty m' ∧ m'.registered = m.registered ++ rows.map (·.2) ∧
      m'.kernel = rows.foldl (fun k row => (hidRegisterKeystroke row.2 k).2) m.kernel) ∧
    ∀ m : Driver, m.pos = 0 → ∀ stream byte, Within (m.run stream) byte := by
  refine ⟨fun m listening empty rows sub => ?_, fun m empty => run_within empty⟩
  have start : Follows m m ([], []) :=
    ⟨listening, by rw [empty.1]; decide, by rw [Driver.collected, empty.1]; rfl, fun _ => empty.2,
      (List.append_nil _).symm, rfl⟩
  have follows := start.run (rows.flatMap fun row => scancodeBytes row.1)
  -- each row's bytes are one word of the framing: no proper prefix is a key
  have words : ∀ w ∈ rows.map (fun row => scancodeBytes row.1), Framing.Word needsMore w := by
    intro w mem
    obtain ⟨row, hr, rfl⟩ := List.mem_map.mp mem
    exact (scancodes_words row (sub row hr)).1
  rw [List.flatMap_def, Framing.foldl_flatten words, List.nil_append] at follows
  have keys : (rows.map fun row => scancodeBytes row.1).map keycodeOf = rows.map (·.2) := by
    rw [List.map_map]
    apply List.map_congr_left
    intro row mem
    exact keycodeOf_row (sub row mem)
  have all : (rows.map (·.2)).filter (· ≠ 0) = rows.map (·.2) := by
    apply List.filter_eq_self.mpr
    intro key mem
    obtain ⟨row, hr, rfl⟩ := List.mem_map.mp mem
    exact decide_eq_true (scancodes_words row (sub row hr)).2.2
  obtain ⟨-, index, collected, clear, registered, kernel⟩ := follows
  rw [keys] at registered kernel
  rw [all] at registered
  rw [List.foldl_map] at kernel
  rw [List.flatMap_def]
  refine ⟨⟨?_, clear rfl⟩, registered, kernel⟩
  have length := collected_length (m.run (rows.map fun row => scancodeBytes row.1).flatten)
  rw [collected] at length
  exact BitVec.eq_of_toNat_eq length.symm

end

/-- The driver after `ps2_kbd_init`. -/
def listeningDriver : Driver :=
  ⟨scancodesSupported, false, false, fun _ => 0, 0,
    .boot ⟨fun _ _ => 0, 0x1000, 0⟩ fun _ => 0, []⟩

/-- Pause between two other keys. -/
theorem scancodes_decoded_pause :
    (listeningDriver.run [0x15, 0xE1, 0x14, 0x77, 0xE1, 0xF0, 0x14, 0xF0, 0x77, 0xF0,
    0x15]).registered =
      [press .charQ, press .pause, release .charQ] ∧
    ∀ stream byte, Within (listeningDriver.run stream) byte := by
  have sub : [(0x15, press .charQ), (0xE11477E1F014F077, press .pause), (0xF015, release .charQ)]
      ⊆ scancodes := by decide +kernel
  have decoded := scancodes_decoded.1 listeningDriver ⟨rfl, rfl⟩ ⟨rfl, fun _ _ => rfl⟩ _
    fun _ mem => sub mem
  exact ⟨decoded.2.1, scancodes_decoded.2 listeningDriver rfl⟩

end Skylight.Ps2

import Skylight.Apps.Typing
import Skylight.Laws.Apps.Prism

/-!
# What is typed

The characters of a session against the US layout. The keycodes of the keypad's minus and plus are
one and the same, so the tables are one entry ahead of the keycodes from there on, and the tables
for caps lock have a comma where the period is.

`typed_text_iff` is about every session of batches of at most 4094 strokes, one `kbd_update`
behind each, from an empty page, whichever locks are on at first: what is typed is the text of
the layout just when every key that was pressed types its own character under the locks of its
time. The layout is given by the legends of the keys (`legend`, `Legend.char`); the shift keys
are not among them.
-/

namespace Skylight.Prism

open Skylight.Calls Skylight.Ps2

/-- What a key is for in the US layout. -/
inductive Legend
  | letter (lower : Char)
  | symbol (c : Char)
  | keypad (c : Char)
  | capslock
  | numlock

def Legend.isKeypad : Legend → Bool
  | .keypad _ => true
  | _ => false

/-- The keys that are typed: those of the main block, the locks and the keypad. -/
def legend : HidKeycode → Option Legend
  | .charA => some (.letter 'a')
  | .charB => some (.letter 'b')
  | .charC => some (.letter 'c')
  | .charD => some (.letter 'd')
  | .charE => some (.letter 'e')
  | .charF => some (.letter 'f')
  | .charG => some (.letter 'g')
  | .charH => some (.letter 'h')
  | .charI => some (.letter 'i')
  | .charJ => some (.letter 'j')
  | .charK => some (.letter 'k')
  | .charL => some (.letter 'l')
  | .charM => some (.letter 'm')
  | .charN => some (.letter 'n')
  | .charO => some (.letter 'o')
  | .charP => some (.letter 'p')
  | .charQ => some (.letter 'q')
  | .charR => some (.letter 'r')
  | .charS => some (.letter 's')
  | .charT => some (.letter 't')
  | .charU => some (.letter 'u')
  | .charV => some (.letter 'v')
  | .charW => some (.letter 'w')
  | .charX => some (.letter 'x')
  | .charY => some (.letter 'y')
  | .charZ => some (.letter 'z')
  | .backtick => some (.symbol '\x60')
  | .num1 => some (.symbol '1')
  | .num2 => some (.symbol '2')
  | .num3 => some (.symbol '3')
  | .num4 => some (.symbol '4')
  | .num5 => some (.symbol '5')
  | .num6 => some (.symbol '6')
  | .num7 => some (.symbol '7')
  | .num8 => some (.symbol '8')
  | .num9 => some (.symbol '9')
  | .num0 => some (.symbol '0')
  | .minus => some (.symbol '-')
  | .equals => some (.symbol '=')
  | .lbracket => some (.symbol '[')
  | .rbracket => some (.symbol ']')
  | .backslash => some (.symbol '\\')
  | .semicolon => some (.symbol ';')
  | .singlequote => some (.symbol '\x27')
  | .comma => some (.symbol ',')
  | .period => some (.symbol '.')
  | .slash => some (.symbol '/')
  | .space => some (.symbol ' ')
  | .enter => some (.symbol '\n')
  | .tab => some (.symbol '\t')
  | .backspace => some (.symbol '\x08')
  | .kpSlash => some (.keypad '/')
  | .kpAsterisk => some (.keypad '*')
  | .kpMinus => some (.keypad '-')
  | .kpPlus => some (.keypad '+')
  | .kp7 => some (.keypad '7')
  | .kp8 => some (.keypad '8')
  | .kp9 => some (.keypad '9')
  | .kp4 => some (.keypad '4')
  | .kp5 => some (.keypad '5')
  | .kp6 => some (.keypad '6')
  | .kp1 => some (.keypad '1')
  | .kp2 => some (.keypad '2')
  | .kp3 => some (.keypad '3')
  | .kp0 => some (.keypad '0')
  | .kpPeriod => some (.keypad '.')
  | .kpEnter => some (.keypad '\n')
  | .capslock => some .capslock
  | .numlock => some .numlock
  | _ => none

/-- The make codes of scan code set 2. -/
def makeCode : HidKeycode → BitVec 64
  | .charA => 0x1C
  | .charB => 0x32
  | .charC => 0x21
  | .charD => 0x23
  | .charE => 0x24
  | .charF => 0x2B
  | .charG => 0x34
  | .charH => 0x33
  | .charI => 0x43
  | .charJ => 0x3B
  | .charK => 0x42
  | .charL => 0x4B
  | .charM => 0x3A
  | .charN => 0x31
  | .charO => 0x44
  | .charP => 0x4D
  | .charQ => 0x15
  | .charR => 0x2D
  | .charS => 0x1B
  | .charT => 0x2C
  | .charU => 0x3C
  | .charV => 0x2A
  | .charW => 0x1D
  | .charX => 0x22
  | .charY => 0x35
  | .charZ => 0x1A
  | .backtick => 0x0E
  | .num1 => 0x16
  | .num2 => 0x1E
  | .num3 => 0x26
  | .num4 => 0x25
  | .num5 => 0x2E
  | .num6 => 0x36
  | .num7 => 0x3D
  | .num8 => 0x3E
  | .num9 => 0x46
  | .num0 => 0x45
  | .minus => 0x4E
  | .equals => 0x55
  | .lbracket => 0x54
  | .rbracket => 0x5B
  | .backslash => 0x5D
  | .semicolon => 0x4C
  | .singlequote => 0x52
  | .comma => 0x41
  | .period => 0x49
  | .slash => 0x4A
  | .space => 0x29
  | .enter => 0x5A
  | .tab => 0x0D
  | .backspace => 0x66
  | .kpSlash => 0xE04A
  | .kpAsterisk => 0x7C
  | .kpMinus => 0x7B
  | .kpPlus => 0x79
  | .kp7 => 0x6C
  | .kp8 => 0x75
  | .kp9 => 0x7D
  | .kp4 => 0x6B
  | .kp5 => 0x73
  | .kp6 => 0x74
  | .kp1 => 0x69
  | .kp2 => 0x72
  | .kp3 => 0x7A
  | .kp0 => 0x70
  | .kpPeriod => 0x71
  | .kpEnter => 0xE05A
  | .capslock => 0x58
  | .numlock => 0x77
  | _ => 0

/-- A key that is pressed, or released. -/
structure Stroke where
  key : HidKeycode
  pressed : Bool

/-- The scan code of a stroke: a break code has `0xF0` before its last byte. -/
def Stroke.code (s : Stroke) : BitVec 64 :=
  let make := makeCode s.key
  if s.pressed then make
  else if make ≤ 0xFF then 0xF000 ||| make
  else (make &&& 0xFF00) <<< 8 ||| 0xF000 ||| (make &&& 0xFF)

/-- Caps lock and num lock. -/
structure Locks where
  caps : Bool
  nums : Bool
  deriving DecidableEq

/-- A lock changes when its key is pressed. -/
def Locks.press (l : Locks) : Legend → Locks
  | .capslock => { l with caps := !l.caps }
  | .numlock => { l with nums := !l.nums }
  | _ => l

/-- What a key types. A lock types nothing. -/
def Legend.char (l : Locks) : Legend → BitVec 8
  | .letter c => BitVec.ofNat 8 (if l.caps then c.toUpper else c).toNat
  | .symbol c | .keypad c => BitVec.ofNat 8 c.toNat
  | .capslock | .numlock => 0

/-- The locks after a stroke. -/
def Locks.stroke (l : Locks) (s : Stroke) : Locks :=
  match s.pressed, legend s.key with
  | true, some g => l.press g
  | _, _ => l

/-- What a stroke types in the US layout. -/
def Stroke.chars (l : Locks) (s : Stroke) : List (BitVec 8) :=
  match s.pressed, legend s.key with
  | true, some g => [g.char (l.press g)]
  | _, _ => []

/-- The text of a list of strokes in the US layout. -/
def usText : Locks → List Stroke → List (BitVec 8)
  | _, [] => []
  | l, s :: rest => s.chars l ++ usText (l.stroke s) rest

/-- A key that is typed; one of the keypad is pressed only while num lock is on. -/
def Stroke.Typing (l : Locks) (s : Stroke) : Prop :=
  ∃ g, legend s.key = some g ∧ (s.pressed = true → g.isKeypad = true → l.nums = true)

/-- A key whose character is not the one of the US layout: all of the keypad but its slash, asterisk
and minus; tab and backspace; enter without num lock; and the period with caps lock. -/
def misprinted (l : Locks) : HidKeycode → Bool
  | .tab | .backspace => true
  | .kpPlus | .kp7 | .kp8 | .kp9 | .kp4 | .kp5 | .kp6 | .kp1 | .kp2 | .kp3 | .kp0 => true
  | .kpPeriod | .kpEnter => true
  | .enter => !l.nums
  | .period => l.caps
  | _ => false

/-- Every stroke, with the locks as they are before it. -/
def EachStroke (P : Locks → Stroke → Prop) : Locks → List Stroke → Prop
  | _, [] => True
  | l, s :: rest => P l s ∧ EachStroke P (l.stroke s) rest

/-- A stroke that types its own character. -/
def Stroke.Printed (l : Locks) (s : Stroke) : Prop :=
  s.pressed = true → misprinted l s.key = false

instance (l : Locks) (s : Stroke) : Decidable (s.Printed l) :=
  inferInstanceAs (Decidable (_ → _))

/-- The keycode of a stroke. -/
def Stroke.keycode (s : Stroke) : BitVec 8 := if s.pressed then press s.key else release s.key

/-- Locks and no shift. -/
def Locks.modifiers (l : Locks) : Modifiers := ⟨false, l.caps, l.nums⟩

/-- What the listener decodes of a list of keycodes. -/
def decoded : Modifiers → List (BitVec 8) → List (BitVec 8)
  | _, [] => []
  | m, k :: ks => decodePress (m.update k) k ++ decoded (m.update k) ks

/-- No round is under way, and `keys` are in the page. -/
structure Holds (m : Machine) (keys : List (BitVec 8)) : Prop where
  shared : Shared m
  sound : Sound m
  place : m.place = .start
  stored : m.stored = m.delivered ++ keys

section
variable {m m' : Machine} {s : Session} {l : Locks} {key : HidKeycode} {g : Legend}
  {stroke : Stroke} {strokes : List Stroke} {keys ks : List (BitVec 8)} {k : BitVec 8}

/-! ### One key -/

/-- The scan codes of set 2 are those of the driver. -/
theorem translate_key (key : HidKeycode) : ∀ g ∈ legend key, ∀ pressed : Bool,
    translateKeycode (Stroke.code ⟨key, pressed⟩) = Stroke.keycode ⟨key, pressed⟩ := by
  cases key <;> decide +kernel

/-- A key types its own character just when it is not misprinted, for all keys and locks. -/
theorem decode_key (key : HidKeycode) : ∀ g ∈ legend key, ∀ caps nums : Bool,
    (g.isKeypad = true → nums = true) →
    (kbdCharDecode (Locks.press ⟨caps, nums⟩ g).modifiers (press key) =
        g.char (Locks.press ⟨caps, nums⟩ g) ↔
      misprinted ⟨caps, nums⟩ key = false) := by
  cases key <;> decide +kernel

/-- What a press and a release do to the modifiers, for all keys and locks. -/
theorem update_key (key : HidKeycode) : ∀ g ∈ legend key, ∀ caps nums : Bool,
    Modifiers.update (Locks.modifiers ⟨caps, nums⟩) (press key) =
      (Locks.press ⟨caps, nums⟩ g).modifiers ∧
    Modifiers.update (Locks.modifiers ⟨caps, nums⟩) (release key) =
      Locks.modifiers ⟨caps, nums⟩ := by
  cases key <;> decide +kernel

/-- The keycodes of a press and a release. -/
theorem press_key (key : HidKeycode) : press key &&& 0x80 = 0 ∧ release key &&& 0x80 ≠ 0 ∧
    press key ≠ 0 ∧ release key ≠ 0 := by
  cases key <;> decide +kernel

/-- No stroke has the keycode 0. -/
theorem keycode_ne_zero (s : Stroke) : s.keycode ≠ 0 := by
  obtain ⟨-, -, pressed, released⟩ := press_key s.key
  rw [Stroke.keycode]
  split
  · exact pressed
  · exact released

/-- The locks of `kbd_update` are those of the layout. -/
theorem update_stroke (typed : legend stroke.key = some g) :
    l.modifiers.update stroke.keycode = (l.stroke stroke).modifiers := by
  obtain ⟨pressed, released⟩ := update_key stroke.key g typed l.caps l.nums
  rw [Stroke.keycode, Locks.stroke, typed]
  cases stroke.pressed with
  | true => exact pressed
  | false => exact released

/-! ### A text -/

/-- What is decoded of the strokes is their text just when every one types its own character. -/
theorem decoded_strokes (typing : EachStroke Stroke.Typing l strokes) :
    decoded l.modifiers (strokes.map Stroke.keycode) = usText l strokes ↔
      EachStroke Stroke.Printed l strokes := by
  induction strokes generalizing l with
  | nil => exact iff_of_true rfl trivial
  | cons s rest ih =>
    obtain ⟨⟨g, typed, keypad⟩, typing⟩ := typing
    rw [List.map_cons, decoded, usText, EachStroke, update_stroke typed, ← ih typing]
    obtain ⟨bit, clear, -⟩ := press_key s.key
    have own := decode_key s.key g typed l.caps l.nums
    cases pressed : s.pressed with
    | true =>
      rw [decodePress, Stroke.keycode, Stroke.chars, Locks.stroke, typed, pressed, if_pos rfl,
        if_pos bit, Stroke.Printed, pressed]
      simp only [List.singleton_append, List.cons.injEq, forall_const]
      exact and_congr_left fun _ => own (keypad pressed)
    | false =>
      rw [decodePress, Stroke.keycode, Stroke.chars, pressed, if_neg Bool.false_ne_true,
        if_neg clear, Stroke.Printed, pressed]
      simp

/-- Keys in two parts. -/
theorem decoded_append (m : Modifiers) (keys ks : List (BitVec 8)) :
    decoded m (keys ++ ks) = decoded m keys ++ decoded (keys.foldl Modifiers.update m) ks := by
  induction keys generalizing m with
  | nil => rfl
  | cons k keys ih =>
    rw [List.cons_append, decoded, ih, decoded, List.foldl_cons, List.append_assoc]

/-! ### The page -/

/-- The keys in the page are the ones that wait. -/
theorem Holds.waiting (h : Holds m keys) : keys.length ≤ 4094 ∧
    m.kernel.read16 m.internalBufferSize = BitVec.ofNat 16 keys.length ∧
    m.waiting 0 keys.length = keys := by
  have sound := h.sound
  rw [Sound, h.place] at sound
  obtain ⟨n, le, size, stored⟩ := sound
  rw [h.stored] at stored
  have same : keys = m.waiting 0 n := List.append_cancel_left stored
  have length : keys.length = n := by
    rw [same, Machine.waiting, List.length_map, List.length_range', Nat.sub_zero]
  rw [length]
  exact ⟨le, size, same.symm⟩

/-- There is room for one more. -/
theorem Holds.accepts (h : Holds m keys) (room : keys.length < 4094) : Accepts m.kernel := by
  obtain ⟨-, size, -⟩ := h.waiting
  obtain ⟨-, held, ⟨some, frame⟩, same, place, sizeSame⟩ := h.shared
  constructor
  · rw [same, sizeSame, place]
    rintro (none | zero | zero)
    · exact held none
    · exact some zero
    · exact size_ne_zero frame zero
  · rw [sizeSame, size, BitVec.toNat_ofNat]
    omega

/-- A key goes behind the others. -/
theorem Holds.saveKey (h : Holds m keys) (room : keys.length < 4094) (k : BitVec 8) :
    Holds (saveKey k m) (keys ++ [k]) := by
  have accepts := h.accepts room
  refine ⟨h.shared.saveKey, h.sound.saveKey h.shared fun _ => h.place, h.place, ?_⟩
  show (if Accepts m.kernel then m.stored ++ [k] else m.stored) = m.delivered ++ (keys ++ [k])
  rw [if_pos accepts, h.stored, List.append_assoc]

/-- A batch of strokes goes into the page. -/
theorem Holds.scan (strokes : List Stroke) (typed : ∀ s ∈ strokes, ∃ g, legend s.key = some g)
    (h : Holds s.machine keys) (room : keys.length + strokes.length ≤ 4094) :
    let s' := (strokes.map Stroke.code).foldl Session.scan s
    Holds s'.machine (keys ++ strokes.map Stroke.keycode) ∧
      s'.machine.modifiers = s.machine.modifiers ∧ s'.typed = s.typed := by
  induction strokes generalizing s keys with
  | nil => exact ⟨(List.append_nil keys).symm ▸ h, rfl, rfl⟩
  | cons stroke rest ih =>
    obtain ⟨⟨g, legend⟩, typed⟩ := List.forall_mem_cons.mp typed
    rw [List.length_cons] at room
    have taken : s.scan stroke.code =
        { s with machine := Prism.saveKey stroke.keycode s.machine } := by
      rw [Session.scan, show translateKeycode stroke.code = stroke.keycode from
        translate_key stroke.key g legend stroke.pressed]
      exact if_neg (keycode_ne_zero stroke)
    obtain ⟨holds, modifiers, same⟩ := @ih (s.scan stroke.code) (keys ++ [stroke.keycode]) typed
      (by rw [taken]; exact h.saveKey (by omega) _)
      (by rw [List.length_append, List.length_singleton]; omega)
    rw [List.append_assoc] at holds
    refine ⟨holds, modifiers.trans ?_, same.trans ?_⟩
    · rw [taken]
      rfl
    · rw [taken]

/-! ### A round -/

/-- A step that hands nothing over. -/
theorem step_quiet (same : (kbdUpdate s.machine).delivered = s.machine.delivered) :
    s.step = { s with machine := kbdUpdate s.machine } := by
  rw [Session.step, same]
  show ({ machine := _, typed := s.typed ++ _ } : Session) = _
  rw [List.drop_length, List.flatMap_nil, List.append_nil]

/-- The step past the keys, and the last one. -/
theorem step_past {n : BitVec 16} (shared : Shared s.machine) (sound : Sound s.machine)
    (place : s.machine.place = .looping n n) :
    Holds (Session.step^[2] s).machine [] ∧
      (Session.step^[2] s).machine.modifiers = s.machine.modifiers ∧
      (Session.step^[2] s).typed = s.typed := by
  obtain ⟨m, typed⟩ := s
  have cleared : ∃ kernel, kbdUpdate m = { m with kernel := kernel, place := .resetting } := by
    rw [kbdUpdate, show m.place = .looping n n from place]
    dsimp only
    rw [if_neg (BitVec.lt_irrefl n)]
    exact ⟨_, rfl⟩
  obtain ⟨kernel, cleared⟩ := cleared
  have last : ∃ kernel, kbdUpdate (kbdUpdate m) = { m with kernel := kernel, place := .start } := by
    rw [cleared, kbdUpdate]
    exact ⟨_, rfl⟩
  obtain ⟨kernel', last⟩ := last
  have first : Session.step ⟨m, typed⟩ = ⟨kbdUpdate m, typed⟩ := step_quiet (by rw [cleared])
  have second : Session.step ⟨kbdUpdate m, typed⟩ = ⟨kbdUpdate (kbdUpdate m), typed⟩ :=
    step_quiet (by rw [last, cleared])
  have both : Session.step^[2] ⟨m, typed⟩ = ⟨kbdUpdate (kbdUpdate m), typed⟩ := by
    show Session.step (Session.step _) = _
    rw [first, second]
  rw [both]
  have sound' := (sound.kbdUpdate shared).kbdUpdate shared.kbdUpdate
  refine ⟨⟨shared.kbdUpdate.kbdUpdate, sound', by rw [last], ?_⟩, by rw [last], rfl⟩
  have stored : m.stored = m.delivered ++ m.waiting n.toNat n.toNat := by
    rw [Sound, show m.place = .looping n n from place] at sound
    exact sound.2.2
  rw [last]
  rw [waiting_self] at stored
  exact stored

/-- A round hands over the keys that are left, and the listener decodes them. -/
theorem step_loop (left : Nat) {n i : BitVec 16} (shared : Shared s.machine)
    (sound : Sound s.machine) (place : s.machine.place = .looping n i)
    (some : n.toNat - i.toNat = left) :
    Holds (Session.step^[left + 2] s).machine [] ∧
    (Session.step^[left + 2] s).machine.modifiers =
      (s.machine.waiting i.toNat n.toNat).foldl Modifiers.update s.machine.modifiers ∧
    (Session.step^[left + 2] s).typed =
      s.typed ++ decoded s.machine.modifiers (s.machine.waiting i.toNat n.toNat) := by
  -- Induction on the keys left in the round. The page is reset behind the last of them.
  induction left generalizing s i with
  | zero =>
    have le : i.toNat ≤ n.toNat := by
      have sound := sound
      rw [Sound, place] at sound
      exact sound.1
    obtain rfl : i = n := BitVec.eq_of_toNat_eq (by omega)
    rw [waiting_self, decoded, List.append_nil]
    exact step_past shared sound place
  | succ left ih =>
    have below : i.toNat < n.toNat := by omega
    have succ : (i + 1).toNat = i.toNat + 1 := by bv_omega
    obtain ⟨m, typed⟩ := s
    set k := m.kernel.bytes (m.internalBuffer + i.setWidth 64) with def_k
    have next : kbdUpdate m = { m with
        modifiers := m.modifiers.update k
        delivered := m.delivered ++ [k]
        place := .looping n (i + 1) } := by
      rw [kbdUpdate, show m.place = .looping n i from place]
      dsimp only
      rw [if_pos (BitVec.lt_def.mpr below)]
    have first : Session.step ⟨m, typed⟩ =
        ⟨kbdUpdate m, typed ++ decodePress (m.modifiers.update k) k⟩ := by
      rw [Session.step, next]
      show ({ machine := _, typed := typed ++ _ } : Session) = _
      rw [List.drop_left, List.flatMap_singleton]
    obtain ⟨holds, modifiers, text⟩ := @ih ⟨kbdUpdate m, typed ++ decodePress
      (m.modifiers.update k) k⟩ (i + 1) shared.kbdUpdate (sound.kbdUpdate shared) (by rw [next])
      (by rw [succ]; omega)
    rw [show (kbdUpdate m).waiting (i + 1).toNat n.toNat = m.waiting (i.toNat + 1) n.toNat by
      rw [next, succ]; rfl, show (kbdUpdate m).modifiers = m.modifiers.update k by rw [next]]
      at modifiers text
    rw [Nat.add_right_comm, Function.iterate_succ_apply, first, waiting_cons below,
      ← ofNat_toNat_setWidth, decoded, List.foldl_cons, ← List.append_assoc]
    exact ⟨holds, modifiers, text⟩

/-- A whole `kbd_update` hands over the keys of the page and leaves it empty. -/
theorem Holds.update (h : Holds s.machine keys) : Holds s.update.machine [] ∧
    s.update.machine.modifiers = keys.foldl Modifiers.update s.machine.modifiers ∧
    s.update.typed = s.typed ++ decoded s.machine.modifiers keys := by
  obtain ⟨few, size, waiting⟩ := h.waiting
  obtain ⟨m, typed⟩ := s
  have value : (m.kernel.read16 m.internalBufferSize).toNat = keys.length := by
    rw [size, BitVec.toNat_ofNat]
    omega
  have started : m.started = true := h.shared.started
  rw [Session.update]
  dsimp only
  rw [value]
  by_cases none : m.kernel.read16 m.internalBufferSize = 0
  · have empty : keys = [] := by
      apply List.eq_nil_of_length_eq_zero
      rw [← value, none]
      rfl
    have stays : kbdUpdate m = m := by
      rw [kbdUpdate, show m.place = .start from h.place]
      simp only [started, Bool.not_true, Bool.false_eq_true, if_false, if_pos none]
    have step : Session.step ⟨m, typed⟩ = ⟨m, typed⟩ := by
      rw [step_quiet (by rw [stays]), stays]
    rw [Function.iterate_fixed step]
    rw [empty] at h ⊢
    exact ⟨h, rfl, (List.append_nil _).symm⟩
  · have begins : kbdUpdate m =
        { m with place := .looping (m.kernel.read16 m.internalBufferSize) 0 } := by
      rw [kbdUpdate, show m.place = .start from h.place]
      simp only [started, Bool.not_true, Bool.false_eq_true, if_false, if_neg none]
    have first : Session.step ⟨m, typed⟩ = ⟨kbdUpdate m, typed⟩ := step_quiet (by rw [begins])
    rw [Function.iterate_succ_apply, first]
    obtain ⟨holds, modifiers, text⟩ := @step_loop ⟨kbdUpdate m, typed⟩ keys.length _ 0
      h.shared.kbdUpdate (h.sound.kbdUpdate h.shared) (by rw [begins]) (by rw [value]; rfl)
    rw [value, show (kbdUpdate m).waiting (0 : BitVec 16).toNat keys.length = keys by
      rw [begins]; exact waiting, show (kbdUpdate m).modifiers = m.modifiers by rw [begins]]
      at modifiers text
    exact ⟨holds, modifiers, text⟩

/-! ### Batches -/

/-- Every stroke is of a key that is typed. -/
theorem EachStroke.typed (typing : EachStroke Stroke.Typing l strokes) :
    ∀ s ∈ strokes, ∃ g, legend s.key = some g := by
  induction strokes generalizing l with
  | nil =>
    intro s mem
    cases mem
  | cons s rest ih =>
    obtain ⟨⟨g, typed, -⟩, typing⟩ := typing
    rw [List.forall_mem_cons]
    exact ⟨⟨g, typed⟩, ih typing⟩

/-- A run decodes its strokes one after the other. -/
theorem Holds.run (batches : List (List Stroke)) (few : ∀ b ∈ batches, b.length ≤ 4094)
    (typed : ∀ s ∈ batches.flatten, ∃ g, legend s.key = some g) (h : Holds s.machine []) :
    (s.run (batches.map (·.map Stroke.code))).typed =
      s.typed ++ decoded s.machine.modifiers (batches.flatten.map Stroke.keycode) := by
  induction batches generalizing s with
  | nil => exact (List.append_nil _).symm
  | cons b batches ih =>
    rw [List.forall_mem_cons] at few
    rw [List.flatten_cons, List.forall_mem_append] at typed
    obtain ⟨scanned, modifiers, same⟩ := h.scan b typed.1 (by simpa using few.1)
    obtain ⟨empty, updated, text⟩ := scanned.update
    have rest := ih few.2 typed.2 empty
    rw [updated, text, modifiers, same, List.nil_append, List.append_assoc, ← decoded_append,
      ← List.map_append] at rest
    exact rest

/-- Typed text is the text of the US layout just when every key that is pressed types its own
character. -/
theorem typed_text_iff (start : Start m) (modifiers : m.modifiers = l.modifiers)
    (batches : List (List Stroke)) (few : ∀ b ∈ batches, b.length ≤ 4094)
    (typing : EachStroke Stroke.Typing l batches.flatten) :
    (Session.run ⟨m, []⟩ (batches.map (·.map Stroke.code))).typed = usText l batches.flatten ↔
      EachStroke Stroke.Printed l batches.flatten := by
  have empty : Holds m [] := by
    refine ⟨start.toShared, start.sound, start.place, ?_⟩
    rw [start.nothing.1, start.nothing.2]
    rfl
  rw [Holds.run batches few typing.typed empty, List.nil_append, modifiers]
  exact decoded_strokes typing

end

/-! ### On the machine -/

/-- An `a`, caps lock and a `b`, and then num lock and the keypad's minus. -/
def machineStrokes : List (List Stroke) :=
  [[⟨.charA, true⟩, ⟨.charA, false⟩, ⟨.capslock, true⟩, ⟨.capslock, false⟩, ⟨.charB, true⟩],
    [⟨.numlock, true⟩, ⟨.kpMinus, true⟩]]

/-- The strokes are typed. -/
theorem machineStrokes_typing : EachStroke Stroke.Typing ⟨false, false⟩ machineStrokes.flatten := by
  refine ⟨⟨_, rfl, ?_⟩, ⟨_, rfl, ?_⟩, ⟨_, rfl, ?_⟩, ⟨_, rfl, ?_⟩, ⟨_, rfl, ?_⟩, ⟨_, rfl, ?_⟩,
    ⟨_, rfl, ?_⟩, trivial⟩ <;> decide

/-- What they type. -/
theorem typed_text_machine :
    (Session.run ⟨emptyPage, []⟩ (machineStrokes.map (·.map Stroke.code))).typed =
      [0x61, 0, 0x42, 0, 0x2D] := by
  have text : usText ⟨false, false⟩ machineStrokes.flatten = [0x61, 0, 0x42, 0, 0x2D] := by
    decide +kernel
  rw [← text]
  apply (typed_text_iff emptyPage_start rfl machineStrokes (by decide) machineStrokes_typing).mpr
  refine ⟨?_, ?_, ?_, ?_, ?_, ?_, ?_, trivial⟩ <;> decide

/-- Enter without num lock, and a period with caps lock. -/
theorem typed_not_text :
    (Session.run ⟨emptyPage, []⟩ [[⟨.enter, true⟩].map Stroke.code]).typed ≠
      usText ⟨false, false⟩ [⟨.enter, true⟩] ∧
    (Session.run ⟨emptyPage, []⟩ [[⟨.capslock, true⟩, ⟨.period, true⟩].map Stroke.code]).typed ≠
      usText ⟨false, false⟩ [⟨.capslock, true⟩, ⟨.period, true⟩] ∧
    (Session.run ⟨emptyPage, []⟩ [[⟨.numlock, true⟩, ⟨.kp7, true⟩].map Stroke.code]).typed ≠
      usText ⟨false, false⟩ [⟨.numlock, true⟩, ⟨.kp7, true⟩] := by
  decide +kernel

end Skylight.Prism

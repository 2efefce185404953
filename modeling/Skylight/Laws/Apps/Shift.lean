import Skylight.Laws.Apps.Prism
import Skylight.Lib.Steps

/-!
# Which shift keys are held

`_kb_shift` is one flag for two keys. It follows them until one is released while the other is
held.

`shift_tracked_iff` is about every run of keystrokes and `kbd_update`, each key of which is
released if it is held and pressed if it is not: after every key that is handed over the flag
says whether a shift key is held, if and only if no shift key was released while the other one
was held. `follows_iff` gives the same for any flag and any keys to begin with. Keys that a
round loses are not handed over and not part of it; which those are is said in
`Laws.Apps.Prism`.
-/

namespace Skylight.Prism

/-- The keys that are held. -/
abbrev Keys := BitVec 8 → Bool

/-- The key of an event: the eighth bit says that it is a release. -/
def key (keycode : BitVec 8) : BitVec 8 := keycode &&& 0x7F

def Released (keycode : BitVec 8) : Prop := keycode &&& 0x80 ≠ 0

instance (keycode : BitVec 8) : Decidable (Released keycode) := inferInstanceAs (Decidable (_ ≠ _))

/-- The keys that are held after an event. -/
def Keys.after (held : Keys) (keycode : BitVec 8) : Keys :=
  Function.update held (key keycode) (decide ¬ Released keycode)

/-- Every key is released if it is held, and pressed if it is not. -/
def Keys.Alternates (held : Keys) : List (BitVec 8) → Prop
  | [] => True
  | e :: es => (Released e ↔ held (key e)) ∧ (held.after e).Alternates es

/-- A shift key is held. -/
def Keys.Shift (held : Keys) : Prop := held hidKeycodeLeftShift ∨ held hidKeycodeRightShift

/-- An event of a shift key. -/
def OfShift (keycode : BitVec 8) : Prop :=
  key keycode = hidKeycodeLeftShift ∨ key keycode = hidKeycodeRightShift

/-- A shift key is released while the other one is held. -/
def Keys.Overlap (held : Keys) (keycode : BitVec 8) : Prop :=
  keycode = hidKeycodeLeftShift ||| 0x80 ∧ held hidKeycodeRightShift ∨
    keycode = hidKeycodeRightShift ||| 0x80 ∧ held hidKeycodeLeftShift

instance (held : Keys) : Decidable held.Shift := inferInstanceAs (Decidable (_ ∨ _))

instance (held : Keys) (keycode : BitVec 8) : Decidable (held.Overlap keycode) :=
  inferInstanceAs (Decidable (_ ∨ _))

/-- `_kb_shift` says whether a shift key is held. -/
def Modifiers.Tells (m : Modifiers) (held : Keys) : Prop := m.shift = true ↔ held.Shift

section
variable {modifiers : Modifiers} {m : Machine} {held : Keys} {e : BitVec 8} {es : List (BitVec 8)}
  {events : List Event}

/-- The two events of the left shift key. -/
theorem key_left_iff : ∀ e : BitVec 8, key e = hidKeycodeLeftShift ↔
    e = hidKeycodeLeftShift ∨ e = hidKeycodeLeftShift ||| 0x80 := by decide

/-- And of the right one. -/
theorem key_right_iff : ∀ e : BitVec 8, key e = hidKeycodeRightShift ↔
    e = hidKeycodeRightShift ∨ e = hidKeycodeRightShift ||| 0x80 := by decide

/-! ### One event -/

/-- Only a shift key overlaps. -/
theorem overlap_ofShift (h : held.Overlap e) : OfShift e := by
  rcases h with ⟨rfl, -⟩ | ⟨rfl, -⟩
  · exact Or.inl ((key_left_iff _).mpr (Or.inr rfl))
  · exact Or.inr ((key_right_iff _).mpr (Or.inr rfl))

/-- Another key leaves the flag. -/
theorem update_other (h : ¬ OfShift e) : (modifiers.update e).shift = modifiers.shift := by
  rw [OfShift, key_left_iff, key_right_iff] at h
  rw [Modifiers.update, if_neg (c := _ ∨ _) (by tauto), if_neg (c := _ ∨ _) (by tauto)]
  split
  · rfl
  · split <;> rfl

/-- And what is held of the two. -/
theorem after_other (h : ¬ OfShift e) : (held.after e).Shift ↔ held.Shift := by
  rw [OfShift, not_or] at h
  rw [Keys.Shift, Keys.after, Function.update_of_ne (Ne.symm h.1),
    Function.update_of_ne (Ne.symm h.2)]
  rfl

/-- A key is held behind its own event unless that was a release. -/
theorem after_self (k : BitVec 8) (same : key e = k) : held.after e k ↔ ¬ Released e := by
  subst same
  rw [Keys.after, Function.update_self, decide_eq_true_eq]

/-- Other keys stay. -/
theorem after_ne {k : BitVec 8} (other : key e ≠ k) : held.after e k = held k :=
  Function.update_of_ne other.symm ..

/-- A press sets the flag. -/
theorem tells_press (press : e = hidKeycodeLeftShift ∨ e = hidKeycodeRightShift) :
    (modifiers.update e).Tells (held.after e) ∧ ¬ held.Overlap e := by
  rcases press with rfl | rfl
  · refine ⟨iff_of_true rfl (Or.inl ((after_self _ (by decide)).mpr (by decide))), ?_⟩
    rintro (⟨release, -⟩ | ⟨release, -⟩) <;> exact absurd release (by decide)
  · refine ⟨iff_of_true rfl (Or.inr ((after_self _ (by decide)).mpr (by decide))), ?_⟩
    rintro (⟨release, -⟩ | ⟨release, -⟩) <;> exact absurd release (by decide)

/-- A release clears it. -/
theorem tells_release
    (release : e = hidKeycodeLeftShift ||| 0x80 ∨ e = hidKeycodeRightShift ||| 0x80) :
    (modifiers.update e).Tells (held.after e) ↔ ¬ held.Overlap e := by
  have off : (modifiers.update e).shift = false := by rcases release with rfl | rfl <;> rfl
  rw [Modifiers.Tells, off, iff_false_left Bool.false_ne_true, not_iff_not, Keys.Shift,
    Keys.Overlap]
  rcases release with rfl | rfl
  · have up : ¬ held.after (hidKeycodeLeftShift ||| 0x80) hidKeycodeLeftShift :=
      mt (after_self _ (by decide)).mp (not_not.mpr (by decide))
    rw [or_iff_right up, after_ne (by decide), and_iff_right rfl, or_iff_left fun h => ?_]
    exact absurd h.1 (by decide)
  · have up : ¬ held.after (hidKeycodeRightShift ||| 0x80) hidKeycodeRightShift :=
      mt (after_self _ (by decide)).mp (not_not.mpr (by decide))
    rw [or_iff_left up, after_ne (by decide), and_iff_right rfl, or_iff_right fun h => ?_]
    exact absurd h.1 (by decide)

/-- The flag is right behind an event if it was so before, or the event is of a shift key, and the
other one is not held. -/
theorem tells_update : (modifiers.update e).Tells (held.after e) ↔
    (modifiers.Tells held ∨ OfShift e) ∧ ¬ held.Overlap e := by
  by_cases shift : OfShift e
  · rw [and_iff_right (Or.inr shift)]
    rw [OfShift, key_left_iff, key_right_iff] at shift
    rcases shift with (press | release) | (press | release)
    · have both := @tells_press modifiers held e (Or.inl press)
      exact iff_of_true both.1 both.2
    · exact tells_release (Or.inl release)
    · have both := @tells_press modifiers held e (Or.inr press)
      exact iff_of_true both.1 both.2
    · exact tells_release (Or.inr release)
  · rw [and_iff_left (mt overlap_ofShift shift), or_iff_left shift, Modifiers.Tells,
      update_other shift, after_other shift]
    rfl

/-! ### A list of events -/

/-- The flag is right behind every event of the list. -/
def Follows (modifiers : Modifiers) (held : Keys) (es : List (BitVec 8)) : Prop :=
  ∀ d, d <+: es → d ≠ [] →
    (d.foldl Modifiers.update modifiers).Tells (d.foldl Keys.after held)

/-- No shift key is released while the other one is held. -/
def Keys.Apart (held : Keys) (es : List (BitVec 8)) : Prop :=
  ∀ before e after, es = before ++ e :: after → ¬ (before.foldl Keys.after held).Overlap e

/-- Before the first event nothing is asked. -/
theorem follows_nil : Follows modifiers held [] := fun _ pre some' =>
  absurd (List.prefix_nil.mp pre) some'

/-- One event, and the others. -/
theorem follows_cons : Follows modifiers held (e :: es) ↔
    (modifiers.update e).Tells (held.after e) ∧ Follows (modifiers.update e) (held.after e) es := by
  constructor
  · intro follows
    refine ⟨follows [e] (by simp) (by simp), fun d pre _ => ?_⟩
    exact follows (e :: d) (List.cons_prefix_cons.mpr ⟨rfl, pre⟩) (List.cons_ne_nil e d)
  · rintro ⟨first, rest⟩ d pre some'
    cases d with
    | nil => exact absurd rfl some'
    | cons a d =>
      obtain ⟨rfl, rest'⟩ := List.cons_prefix_cons.mp pre
      cases d with
      | nil => exact first
      | cons b d => exact rest (b :: d) rest' (List.cons_ne_nil b d)

/-- No event overlaps. -/
theorem apart_nil : held.Apart [] := forall_split_nil

/-- One event, and the others. -/
theorem apart_cons : held.Apart (e :: es) ↔ ¬ held.Overlap e ∧ (held.after e).Apart es :=
  forall_split_cons

/-- Once it is right, it stays so as long as the shift keys are pressed apart. -/
theorem follows_iff_apart (tells : modifiers.Tells held) :
    Follows modifiers held es ↔ held.Apart es := by
  induction es generalizing modifiers held with
  | nil => exact iff_of_true follows_nil apart_nil
  | cons e es ih =>
    rw [follows_cons, apart_cons, tells_update, and_iff_right (Or.inl tells)]
    exact and_congr_right fun apart => ih (tells_update.mpr ⟨Or.inl tells, apart⟩)

/-- With the flag clear and a shift key held already, the first event has to be of such a key. -/
theorem follows_iff (off : modifiers.shift = false) : Follows modifiers held es ↔
    (held.Shift → ∀ e, es.head? = some e → OfShift e) ∧ held.Apart es := by
  have clear : modifiers.Tells held ↔ ¬ held.Shift := by
    rw [Modifiers.Tells, off]
    exact iff_false_left Bool.false_ne_true
  by_cases shift : held.Shift
  · rw [forall_prop_of_true shift]
    cases es with
    | nil => exact iff_of_true follows_nil ⟨fun _ none => absurd none (by simp), apart_nil⟩
    | cons e es =>
      rw [follows_cons, apart_cons, tells_update, clear, or_iff_right (not_not.mpr shift),
        and_assoc]
      have first : (∀ a, (e :: es).head? = some a → OfShift a) ↔ OfShift e := by simp
      rw [first]
      refine and_congr_right fun ofShift => and_congr_right fun apart => ?_
      exact follows_iff_apart (tells_update.mpr ⟨Or.inr ofShift, apart⟩)
  · rw [follows_iff_apart (clear.mpr shift)]
    exact (and_iff_right fun held' => absurd held' shift).symm

/-! ### A run -/

/-- A step hands over one key at most, and the modifiers follow it. -/
theorem kbdUpdate_delivered (m : Machine) :
    (kbdUpdate m).delivered = m.delivered ∧ (kbdUpdate m).modifiers = m.modifiers ∨
      ∃ e, (kbdUpdate m).delivered = m.delivered ++ [e] ∧
        (kbdUpdate m).modifiers = m.modifiers.update e := by
  rw [kbdUpdate]
  split
  · split
    · exact Or.inl ⟨rfl, rfl⟩
    · dsimp only
      split <;> exact Or.inl ⟨rfl, rfl⟩
  · split
    · exact Or.inr ⟨_, rfl, rfl⟩
    · exact Or.inl ⟨rfl, rfl⟩
  · exact Or.inl ⟨rfl, rfl⟩

/-- And so does an event. -/
theorem step_delivered (m : Machine) (event : Event) :
    (m.step event).delivered = m.delivered ∧ (m.step event).modifiers = m.modifiers ∨
      ∃ e, (m.step event).delivered = m.delivered ++ [e] ∧
        (m.step event).modifiers = m.modifiers.update e := by
  cases event with
  | key keycode => exact Or.inl ⟨rfl, rfl⟩
  | update => exact kbdUpdate_delivered m

/-- A run hands over some more keys, and the modifiers are what they make of them. -/
theorem run_delivers (m : Machine) (events : List Event) :
    ∃ es, (m.run events).delivered = m.delivered ++ es ∧
      (m.run events).modifiers = es.foldl Modifiers.update m.modifiers := by
  induction events generalizing m with
  | nil => exact ⟨[], (List.append_nil _).symm, rfl⟩
  | cons event events ih =>
    obtain ⟨es, delivered, modifiers⟩ := ih (m.step event)
    rcases step_delivered m event with ⟨same, same'⟩ | ⟨e, one, one'⟩
    · rw [same] at delivered
      rw [same'] at modifiers
      exact ⟨es, delivered, modifiers⟩
    · rw [one, List.append_assoc] at delivered
      rw [one'] at modifiers
      exact ⟨e :: es, delivered, modifiers⟩

/-- It hands them over one by one. -/
theorem run_reaches {d : List (BitVec 8)} (delivered : (m.run events).delivered = m.delivered ++ es)
    (pre : d <+: es) : ∃ before after, events = before ++ after ∧
      (m.run before).delivered = m.delivered ++ d := by
  induction events generalizing m es d with
  | nil =>
    obtain rfl : es = [] := List.self_eq_append_right.mp delivered
    exact ⟨[], [], rfl, by rw [List.prefix_nil.mp pre, List.append_nil]; rfl⟩
  | cons event events ih =>
    cases d with
    | nil => exact ⟨[], _, rfl, (List.append_nil _).symm⟩
    | cons a d =>
      rcases step_delivered m event with ⟨same, -⟩ | ⟨e, one, -⟩
      · obtain ⟨before, after, rfl, reached⟩ := ih (by rw [same]; exact delivered) pre
        exact ⟨event :: before, after, rfl, by rw [← same]; exact reached⟩
      · obtain ⟨more, delivered', -⟩ := run_delivers (m.step event) events
        rw [one, List.append_assoc] at delivered'
        obtain rfl : es = e :: more := List.append_cancel_left (delivered.symm.trans delivered')
        obtain ⟨rfl, rest⟩ := List.cons_prefix_cons.mp pre
        rw [← List.append_assoc, ← one] at delivered'
        obtain ⟨before, after, rfl, reached⟩ := ih delivered' rest
        refine ⟨event :: before, after, rfl, ?_⟩
        rw [one, List.append_assoc] at reached
        exact reached

/-- After every key that a run hands over the flag says whether a shift key is held, unless one is
released while the other is held, or one is held from the start and the first key is another. -/
theorem shift_tracked_iff (m : Machine) (held : Keys) (events : List Event)
    (fresh : m.delivered = []) (off : m.modifiers.shift = false) :
    (∀ before after, events = before ++ after → (m.run before).delivered ≠ [] →
      (m.run before).modifiers.Tells ((m.run before).delivered.foldl Keys.after held)) ↔
    (held.Shift → ∀ e, (m.run events).delivered.head? = some e → OfShift e) ∧
      held.Apart (m.run events).delivered := by
  rw [← follows_iff off]
  constructor
  · intro tracked d pre some'
    obtain ⟨before, after, split, reached⟩ := run_reaches (by rw [fresh]; rfl) pre
    rw [fresh, List.nil_append] at reached
    have tells := tracked before after split (reached ▸ some')
    obtain ⟨es, delivered, modifiers⟩ := run_delivers m before
    rw [fresh, List.nil_append, reached] at delivered
    rw [modifiers, ← delivered, reached] at tells
    exact tells
  · rintro follows before after rfl some'
    obtain ⟨es, delivered, modifiers⟩ := run_delivers m before
    rw [fresh, List.nil_append] at delivered
    rw [modifiers, ← delivered]
    obtain ⟨more, delivered', -⟩ := run_delivers (m.run before) after
    refine follows _ ⟨more, ?_⟩ some'
    rw [← delivered', Machine.run, Machine.run, Machine.run, List.foldl_append]

end

/-- The left shift key is pressed, then `a`, and it is released. -/
def shiftedKey : List Event :=
  [.key hidKeycodeLeftShift, .key 0x1E, .update, .update, .update, .update, .update,
    .key (hidKeycodeLeftShift ||| 0x80), .update, .update]

/-- The flag is right behind it. -/
theorem shift_tracked_key : (emptyPage.run shiftedKey).modifiers.Tells
    ((emptyPage.run shiftedKey).delivered.foldl Keys.after fun _ => false) := by
  have delivered : (emptyPage.run shiftedKey).delivered =
      [hidKeycodeLeftShift, 0x1E, hidKeycodeLeftShift ||| 0x80] := by decide +kernel
  apply (shift_tracked_iff emptyPage (fun _ => false) shiftedKey rfl rfl).mpr _ shiftedKey [] rfl
  · rw [delivered]
    exact List.cons_ne_nil _ _
  · rw [delivered, apart_cons, apart_cons, apart_cons]
    exact ⟨fun held => absurd held (by decide), by decide, by decide, by decide, apart_nil⟩

/-- Both are pressed, and the left one is released. -/
def bothShifts : List Event :=
  [.key hidKeycodeLeftShift, .key hidKeycodeRightShift, .key (hidKeycodeLeftShift ||| 0x80),
    .update, .update, .update, .update]

/-- The right one is still held, and the flag says it is not. -/
theorem shift_lost : Keys.Alternates (fun _ => false) (emptyPage.run bothShifts).delivered ∧
    ¬ (emptyPage.run bothShifts).modifiers.Tells
      ((emptyPage.run bothShifts).delivered.foldl Keys.after fun _ => false) := by
  have delivered : (emptyPage.run bothShifts).delivered =
      [hidKeycodeLeftShift, hidKeycodeRightShift, hidKeycodeLeftShift ||| 0x80] := by decide +kernel
  have off : (emptyPage.run bothShifts).modifiers.shift = false := by decide +kernel
  rw [delivered, Modifiers.Tells, off]
  refine ⟨⟨by decide, by decide, by decide, trivial⟩, fun tells => ?_⟩
  exact absurd (tells.mpr (by decide)) Bool.false_ne_true

end Skylight.Prism

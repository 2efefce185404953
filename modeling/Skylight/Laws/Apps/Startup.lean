import Skylight.Laws.Apps.Prism
import Skylight.Laws.Apps.Kbd

/-!
# Who holds the keyboard after `kbd_init`

`kbd_init` takes the keyboard first and does not give it back when something is missing, and
`kbd_kill` leaves `listeners` as it is, so no second start succeeds. A start that finds the keyboard
free is all or nothing only if nothing is missing.
-/

namespace Skylight.Prism

open Skylight.Paging Skylight.Calls

/-- The process and the kernel; whether `kbd_kill` was called and what `kbd_init` answered last are
kept for the statement only. -/
structure Client where
  kbd : Kbd
  kernel : Calls.Kernel
  killed : Bool
  answer : Option Bool

/-- A call of the process, or something else that happens between its calls. -/
inductive Act
  | init (meanwhile : List Meanwhile)
  | kill
  | other (event : Meanwhile)

def Client.act (g : Nat → Addr) (fuel : Nat) (caller : Caller) (s : Client) : Act → Option Client
  | .init meanwhile => (kbdInit g fuel caller meanwhile s.kbd s.kernel).map
      fun (answer, kbd, kernel) => { s with kbd := kbd, kernel := kernel, answer := some answer }
  | .kill => (kbdKill g fuel caller s.kbd s.kernel).map
      fun (kbd, kernel) => { s with kbd := kbd, kernel := kernel, killed := true }
  | .other event => (event.run g fuel s.kernel).map fun kernel => { s with kernel := kernel }

/-- Another process than the caller. -/
def Meanwhile.Others (caller : Caller) : Meanwhile → Prop
  | .key _ => True
  | .kbMan other _ => other.pid ≠ caller.pid

def Act.Others (caller : Caller) : Act → Prop
  | .init meanwhile => ∀ event ∈ meanwhile, event.Others caller
  | .kill => True
  | .other event => event.Others caller

/-- The process holds the keyboard. -/
def Client.Holds (caller : Caller) (s : Client) : Prop := s.kernel.currentPid = caller.pid

/-- A `kbd_init` that fails leaves the process without the keyboard if it was without it before, and
behind a `kbd_kill` none fails unless another process holds the keyboard. -/
def AllOrNothing (caller : Caller) (s : Client) (act : Act) (s' : Client) : Prop :=
  ∀ meanwhile, act = .init meanwhile →
    (s'.answer = some false → s'.Holds caller → s.Holds caller) ∧
    (s.killed = true → s.kernel.currentPid = nobody ∨ s.Holds caller → s'.answer = some true)

/-- Nothing is missing: `listeners` is still null, there are pages for the keys and for the
listeners, and no key comes before the look at the size. -/
structure Provided (g : Nat → Addr) (fuel : Nat) (caller : Caller) (meanwhile : List Meanwhile)
    (m : Kbd) (k : Calls.Kernel) : Prop where
  listeners : m.listeners = 0
  buffer : g k.tables.served ≠ 0
  quiet : ∀ keycode, Meanwhile.key keycode ∉ meanwhile
  page : ∀ a k', Calls.kbMan g fuel true caller k = some (a, k') → g k'.tables.served ≠ 0

/-- Every start that finds the keyboard free is provided for. -/
def Careful (g : Nat → Addr) (fuel : Nat) (caller : Caller) (s : Client) (act : Act) (_ : Client) :
    Prop :=
  ∀ meanwhile, act = .init meanwhile → s.kbd.started = false → s.kernel.currentPid = nobody →
    Provided g fuel caller meanwhile s.kbd s.kernel

/-- What holds between the calls. -/
structure Between (caller : Caller) (s : Client) : Prop where
  started : s.kbd.started = true → s.Holds caller
  killed : s.killed = true → s.Holds caller → s.kbd.started = true

section
variable {g : Nat → Addr} {fuel : Nat} {caller other : Caller} {s s' : Client} {k k' : Calls.Kernel}
  {act : Act} {event : Meanwhile} {meanwhile : List Meanwhile} {taking answer : Bool} {a : Addr}
  {m m' : Kbd}

/-! ### The others -/

/-- A key does not change who has the keyboard. -/
theorem saveKey_pid (keycode : BitVec 8) (k : Calls.Kernel) :
    (kbManSaveKey keycode k).currentPid = k.currentPid := by rw [saveKey_fields]

/-- Nor does it change a table. -/
theorem saveKey_tables (keycode : BitVec 8) (k : Calls.Kernel) :
    (kbManSaveKey keycode k).tables = k.tables := by rw [saveKey_fields]

/-- While a process holds the keyboard, others are refused. -/
theorem kbMan_others (held : k.currentPid = caller.pid) (pid : caller.pid ≠ nobody)
    (others : other.pid ≠ caller.pid) (run : Calls.kbMan g fuel taking other k = some (a, k')) :
    k' = k := by
  rcases kbMan_cases run with ⟨-, same, -⟩ | ⟨-, own, -⟩ | ⟨-, free, -⟩
  · exact same
  · exact absurd (own.symm.trans held) others
  · exact absurd (held.symm.trans free) pid

/-- No call of another process takes the keyboard for this one or from it. -/
theorem others_holds (pid : caller.pid ≠ nobody) (others : event.Others caller)
    (run : event.run g fuel k = some k') :
    k'.currentPid = caller.pid ↔ k.currentPid = caller.pid := by
  cases event with
  | key keycode =>
    cases run
    rw [saveKey_pid]
  | kbMan other taking =>
    obtain ⟨⟨a, k''⟩, call, rfl⟩ := Option.map_eq_some_iff.mp run
    rcases kbMan_cases call with ⟨-, rfl, -⟩ | ⟨-, own, -, -, rfl⟩ | ⟨-, free, -, answer, s, -, rfl⟩
    · rfl
    · exact iff_of_false pid.symm (own ▸ others)
    · exact iff_of_false others (free ▸ pid.symm)

/-- Keys that come meanwhile are all that happens. -/
theorem meanwhile_run (pid : caller.pid ≠ nobody)
    (others : ∀ event ∈ meanwhile, event.Others caller)
    (held : k.currentPid = caller.pid) (run : meanwhile.foldlM (Meanwhile.run g fuel) k = some k') :
    k'.currentPid = caller.pid ∧ k'.tables = k.tables ∧
      ((∀ keycode, Meanwhile.key keycode ∉ meanwhile) → k' = k) := by
  induction meanwhile generalizing k with
  | nil =>
    cases run
    exact ⟨held, rfl, fun _ => rfl⟩
  | cons event meanwhile ih =>
    rw [List.foldlM_cons] at run
    obtain ⟨k₁, first, rest⟩ := Option.bind_eq_some_iff.mp run
    have mem := others event (List.mem_cons_self ..)
    have held₁ := (others_holds pid mem first).mpr held
    obtain ⟨held', tables, quiet⟩ := ih (fun e h => others e (List.mem_cons_of_mem _ h)) held₁ rest
    cases event with
    | key keycode =>
      cases first
      refine ⟨held', tables.trans (saveKey_tables keycode k), fun none => ?_⟩
      exact absurd (List.mem_cons_self ..) (none keycode)
    | kbMan other taking =>
      obtain ⟨⟨a, k''⟩, call, rfl⟩ := Option.map_eq_some_iff.mp first
      obtain rfl := kbMan_others held pid mem call
      refine ⟨held', tables, fun none => quiet fun keycode h => ?_⟩
      exact none keycode (List.mem_cons_of_mem _ h)

/-! ### Keys -/

/-- The process has a page of keys, with no more of them than there is room for. -/
structure HasPage (caller : Caller) (buffer : Addr) (k : Calls.Kernel) : Prop where
  held : k.currentPid = caller.pid
  nonzero : k.currentBuffer = buffer ∧ buffer ≠ 0 ∧ IsFrame buffer
  size : k.currentSize = buffer + 4094
  few : (k.read16 (buffer + 4094)).toNat ≤ 4094

/-- After a key there is at least one. -/
theorem HasPage.saveKey (h : HasPage caller a k) (pid : caller.pid ≠ nobody) (keycode : BitVec 8) :
    HasPage caller a (kbManSaveKey keycode k) ∧
      0 < ((kbManSaveKey keycode k).read16 (a + 4094)).toNat := by
  obtain ⟨held, ⟨buffer, nonzero, frame⟩, size, few⟩ := h
  have fields := saveKey_fields keycode k
  have there : ¬ (k.currentPid = nobody ∨ k.currentBuffer = 0 ∨ k.currentSize = 0) := by
    rw [held, buffer, size]
    rintro (no | no | no)
    · exact pid no
    · exact nonzero no
    · exact size_ne_zero frame no
  have value : (kbManSaveKey keycode k).read16 (a + 4094) = k.read16 (a + 4094) ∧
        (k.read16 (a + 4094)).toNat = 4094 ∨
      ((kbManSaveKey keycode k).read16 (a + 4094)).toNat = (k.read16 (a + 4094)).toNat + 1 ∧
        (k.read16 (a + 4094)).toNat < 4094 := by
    by_cases accepts : Accepts k
    · have room := accepts.2
      have now := (@saveKey_bytes k keycode _ accepts (by rw [size, buffer]) rfl).1
      rw [size] at room now
      refine Or.inr ⟨?_, by omega⟩
      rw [now, BitVec.toNat_ofNat]
      omega
    · rw [saveKey_refused accepts]
      rw [Accepts, and_iff_right there, size] at accepts
      exact Or.inl ⟨rfl, by omega⟩
  refine ⟨⟨?_, ⟨?_, nonzero, frame⟩, ?_, ?_⟩, ?_⟩
  · rw [fields]
    exact held
  · rw [fields]
    exact buffer
  · rw [fields]
    exact size
  · rcases value with ⟨same, -⟩ | ⟨next, lt⟩
    · rw [same]
      exact few
    · omega
  · rcases value with ⟨same, full⟩ | ⟨next, -⟩
    · rw [same, full]
      decide
    · omega

/-- A key that comes meanwhile shows in the size. -/
theorem HasPage.run (h : HasPage caller a k) (pid : caller.pid ≠ nobody)
    (others : ∀ event ∈ meanwhile, event.Others caller)
    (run : meanwhile.foldlM (Meanwhile.run g fuel) k = some k')
    (some' : 0 < (k.read16 (a + 4094)).toNat ∨ ∃ keycode, Meanwhile.key keycode ∈ meanwhile) :
    0 < (k'.read16 (a + 4094)).toNat := by
  induction meanwhile generalizing k with
  | nil =>
    cases run
    rcases some' with now | ⟨keycode, mem⟩
    · exact now
    · exact absurd mem (List.not_mem_nil)
  | cons event meanwhile ih =>
    rw [List.foldlM_cons] at run
    obtain ⟨k₁, first, rest⟩ := Option.bind_eq_some_iff.mp run
    have others' := fun e h => others e (List.mem_cons_of_mem event h)
    cases event with
    | key keycode =>
      cases first
      obtain ⟨page, now⟩ := h.saveKey pid keycode
      exact ih page others' rest (Or.inl now)
    | kbMan other taking =>
      obtain ⟨⟨b, k₂⟩, call, rfl⟩ := Option.map_eq_some_iff.mp first
      obtain rfl := kbMan_others h.held pid (others _ (List.mem_cons_self ..)) call
      refine ih h others' rest (some'.imp_right fun ⟨keycode, mem⟩ => ⟨keycode, ?_⟩)
      rcases List.mem_cons.mp mem with no | mem
      · cases no
      · exact mem

/-! ### A start -/

/-- A size that was cleared reads as zero. -/
theorem read16_cleared {b : Addr} {tables : Paging.State} :
    Calls.Kernel.read16 { k.write16 b 0 with tables := tables } b = 0 :=
  (read16_congr rfl rfl).trans (read16_write16 k b 0)

/-- The keyboard that a free `kb_man` gives, with its page. -/
theorem kbMan_page (free : k.currentPid = nobody) (frames : ∀ n, IsFrame (g n))
    (run : Calls.kbMan g fuel true caller k = some (a, k')) :
    k'.currentPid = caller.pid ∧ a = g k.tables.served ∧ k'.read16 (a + 4094) = 0 ∧
      (a ≠ 0 → HasPage caller a k') := by
  rcases kbMan_cases run with ⟨-, -, refused⟩ | ⟨no, -⟩ | ⟨-, -, eq, answer, s, -, rfl⟩
  · exact absurd free refused
  · cases no
  · rw [size_eq]
    have zero := @read16_cleared { k with
      currentPid := caller.pid, currentBuffer := a, currentSize := a + 4094 } (a + 4094)
        (pagingLoadPml4 s k.tables.pml4)
    have few := (congrArg BitVec.toNat zero).trans BitVec.toNat_zero
    refine ⟨rfl, eq, zero, fun nonzero => ⟨rfl, ⟨rfl, nonzero, eq ▸ frames _⟩, rfl, ?_⟩⟩
    exact Nat.le_trans (Nat.le_of_eq few) (Nat.zero_le 4094)

/-- `kb_man` gives nothing while somebody has the keyboard. -/
theorem kbMan_busy (busy : k.currentPid ≠ nobody)
    (run : Calls.kbMan g fuel true caller k = some (a, k')) : a = 0 ∧ k' = k := by
  rcases kbMan_cases run with ⟨zero, same, -⟩ | ⟨no, -⟩ | ⟨-, free, -⟩
  · exact ⟨zero, same⟩
  · cases no
  · exact absurd free busy

/-- A second start does nothing. -/
theorem init_started (started : m.started = true) :
    kbdInit g fuel caller meanwhile m k = some (true, m, k) := if_pos started

/-- A start in vain clears a pointer. -/
theorem init_busy (stopped : m.started = false) (busy : k.currentPid ≠ nobody)
    (run : kbdInit g fuel caller meanwhile m k = some (answer, m', k')) :
    answer = false ∧ m' = { m with internalBuffer := 0 } ∧ k' = k := by
  rw [kbdInit, stopped, if_neg (by decide)] at run
  obtain ⟨⟨a, k₁⟩, call, rest⟩ := Option.bind_eq_some_iff.mp run
  obtain ⟨rfl, rfl⟩ := kbMan_busy busy call
  dsimp only at rest
  rw [if_pos rfl] at rest
  cases rest
  exact ⟨rfl, congrArg (fun b => { m with started := b, internalBuffer := 0 }) stopped.symm, rfl⟩

/-- The page is the next frame. -/
theorem pmap_page {cr3 : Addr} {t t' : Paging.State} (run : pmap g fuel cr3 0 t = some (a, t')) :
    a = g t.served := by
  rw [pmap] at run
  obtain ⟨⟨b, t₁⟩, call, rest⟩ := Option.bind_eq_some_iff.mp run
  cases rest
  cases fuel with
  | zero => cases call
  | succ fuel =>
    obtain ⟨_, _, _, _, _, _, -, -, -, same, -⟩ := mapPage_cases call
    exact same

/-- A start that finds the keyboard free takes it, and is all that was asked for if it is provided
for. -/
theorem init_free (pid : caller.pid ≠ nobody) (frames : ∀ n, IsFrame (g n))
    (others : ∀ event ∈ meanwhile, event.Others caller) (stopped : m.started = false)
    (free : k.currentPid = nobody)
    (run : kbdInit g fuel caller meanwhile m k = some (answer, m', k')) :
    k'.currentPid = caller.pid ∧ (answer = true ↔ Provided g fuel caller meanwhile m k) ∧
      m'.started = answer := by
  rw [kbdInit, if_neg (by rw [stopped]; decide)] at run
  obtain ⟨⟨a, k₁⟩, call, run₁⟩ := Option.bind_eq_some_iff.mp run
  obtain ⟨held, buffer, empty, page⟩ := kbMan_page free frames call
  dsimp only at run₁
  by_cases null : a = 0
  · rw [if_pos null] at run₁
    cases run₁
    exact ⟨held, iff_of_false (by decide) fun p => p.buffer (buffer ▸ null), stopped⟩
  rw [if_neg null] at run₁
  obtain ⟨k₂, between, run₂⟩ := Option.bind_eq_some_iff.mp run₁
  obtain ⟨held₂, tables, quiet⟩ := meanwhile_run pid others held between
  rw [show a + 0x1000 - 2 = a + 4094 from size_eq a] at run₂
  by_cases keys : k₂.read16 (a + 4094) ≠ 0
  · rw [if_pos keys] at run₂
    cases run₂
    refine ⟨held₂, iff_of_false (by decide) fun p => keys ?_, stopped⟩
    rw [quiet p.quiet]
    exact empty
  rw [if_neg keys] at run₂
  have none : ∀ keycode, Meanwhile.key keycode ∉ meanwhile := fun keycode mem => by
    have pos := (page null).run pid others between (Or.inr ⟨keycode, mem⟩)
    rw [not_not.mp keys] at pos
    exact absurd pos (by decide)
  by_cases again : m.listeners ≠ 0
  · rw [if_pos again] at run₂
    cases run₂
    exact ⟨held₂, iff_of_false (by decide) fun p => again p.listeners, stopped⟩
  rw [if_neg again] at run₂
  obtain ⟨⟨listeners, t⟩, mapped, run₃⟩ := Option.bind_eq_some_iff.mp run₂
  have served := pmap_page mapped
  rw [tables] at served
  dsimp only at run₃
  by_cases missing : listeners = 0
  · rw [if_pos missing] at run₃
    cases run₃
    exact ⟨held₂, iff_of_false (by decide) fun p => p.page a k₁ call (served ▸ missing), stopped⟩
  · rw [if_neg missing] at run₃
    cases run₃
    refine ⟨held₂, iff_of_true rfl ⟨not_not.mp again, buffer ▸ null, none, ?_⟩, rfl⟩
    intro b k₃ call'
    obtain ⟨-, rfl⟩ := Prod.mk.inj (Option.some.inj (call.symm.trans call'))
    exact served ▸ missing

/-! ### A run -/

/-- What is asked of a start. -/
theorem allOrNothing_init : AllOrNothing caller s (.init meanwhile) s' ↔
    (s'.answer = some false → s'.Holds caller → s.Holds caller) ∧
      (s.killed = true → s.kernel.currentPid = nobody ∨ s.Holds caller →
        s'.answer = some true) := by
  constructor
  · intro all
    exact all meanwhile rfl
  · intro both meanwhile' same
    cases same
    exact both

/-- And when it is provided for. -/
theorem careful_init : Careful g fuel caller s (.init meanwhile) s' ↔ (s.kbd.started = false →
    s.kernel.currentPid = nobody → Provided g fuel caller meanwhile s.kbd s.kernel) := by
  constructor
  · intro all
    exact all meanwhile rfl
  · intro careful meanwhile' same
    cases same
    exact careful

/-- In a start both properties agree. -/
theorem init_agree (pid : caller.pid ≠ nobody) (frames : ∀ n, IsFrame (g n))
    (between : Between caller s) (others : ∀ event ∈ meanwhile, event.Others caller)
    (run : s.act g fuel caller (.init meanwhile) = some s') :
    (AllOrNothing caller s (.init meanwhile) s' ↔ Careful g fuel caller s (.init meanwhile) s') ∧
      (Careful g fuel caller s (.init meanwhile) s' → Between caller s') := by
  obtain ⟨⟨answer, m', k'⟩, call, rfl⟩ := Option.map_eq_some_iff.mp run
  rw [allOrNothing_init, careful_init]
  by_cases started : s.kbd.started = true
  · -- nothing is done
    rw [init_started started] at call
    cases call
    refine ⟨iff_of_true ⟨fun no => ?_, fun _ _ => rfl⟩ fun no => ?_, fun _ => ?_⟩
    · cases no
    · rw [started] at no
      cases no
    · exact ⟨between.started, between.killed⟩
  rw [Bool.not_eq_true] at started
  by_cases free : s.kernel.currentPid = nobody
  · -- the keyboard is taken
    obtain ⟨held, provided, now⟩ := init_free pid frames others started free call
    have before : ¬ s.Holds caller := fun holds => pid (holds.symm.trans free)
    rw [forall_prop_of_true started, forall_prop_of_true free, ← provided]
    refine ⟨⟨fun all => ?_, fun yes => ?_⟩, fun yes => ⟨fun _ => held, fun _ _ => now.trans yes⟩⟩
    · by_contra no
      rw [Bool.not_eq_true] at no
      exact before (all.1 (congrArg some no) held)
    · exact ⟨fun no => absurd (yes.symm.trans (Option.some.inj no)) (by decide), fun _ _ =>
        congrArg some yes⟩
  · -- nothing is given
    obtain ⟨rfl, rfl, rfl⟩ := init_busy started free call
    refine ⟨iff_of_true ⟨fun _ holds => holds, ?_⟩ fun _ no => absurd no free, fun _ => ?_⟩
    · rintro killed (no | holds)
      · exact absurd no free
      · exact absurd ((between.killed killed holds).symm.trans started) (by decide)
    · exact ⟨between.started, between.killed⟩

/-- A `kbd_kill` leaves the process without the keyboard. -/
theorem kill_between (pid : caller.pid ≠ nobody) (run : s.act g fuel caller .kill = some s') :
    Between caller s' := by
  obtain ⟨⟨m', k'⟩, call, rfl⟩ := Option.map_eq_some_iff.mp run
  obtain ⟨⟨a, k₁⟩, release, rest⟩ := Option.bind_eq_some_iff.mp call
  have gone : k₁.currentPid ≠ caller.pid := by
    rcases kbMan_cases release with ⟨-, rfl, refused⟩ | ⟨-, -, -, -, rfl⟩ | ⟨no, -⟩
    · rcases refused with other | none
      · exact other
      · exact none ▸ pid.symm
    · exact pid.symm
    · cases no
  cases rest
  exact ⟨fun no => Bool.noConfusion no, fun _ holds => absurd holds gone⟩

/-- Others leave it so. -/
theorem other_between (pid : caller.pid ≠ nobody) (between : Between caller s)
    (others : event.Others caller) (run : s.act g fuel caller (.other event) = some s') :
    Between caller s' := by
  obtain ⟨k', call, rfl⟩ := Option.map_eq_some_iff.mp run
  have holds := others_holds pid others call
  exact ⟨fun started => holds.mpr (between.started started), fun killed h =>
    between.killed killed (holds.mp h)⟩

/-- Starts are all or nothing in every run in which each that finds the keyboard free is provided
for, and in no other. -/
theorem allOrNothing_iff (g : Nat → Addr) (fuel : Nat) (caller : Caller)
    (frames : ∀ n, IsFrame (g n))
    (pid : caller.pid ≠ nobody) (s : Client) (stopped : s.kbd.started = false)
    (unkilled : s.killed = false) (acts : List Act) (others : ∀ act ∈ acts, act.Others caller) :
    Steps (Client.act g fuel caller) (AllOrNothing caller) s acts ↔
      Steps (Client.act g fuel caller) (Careful g fuel caller) s acts := by
  have start : Between caller s :=
    ⟨fun no => absurd (no.symm.trans stopped) (by decide), fun no => absurd (no.symm.trans unkilled)
      (by decide)⟩
  apply steps_iff_of others start
  · intro s act s' others between run
    cases act with
    | init meanwhile => exact (init_agree pid frames between others run).1
    | kill => exact iff_of_true (fun _ no => nomatch no) fun _ no => nomatch no
    | other event => exact iff_of_true (fun _ no => nomatch no) fun _ no => nomatch no
  · intro s act s' others between run careful
    cases act with
    | init meanwhile => exact (init_agree pid frames between others run).2 careful
    | kill => exact kill_between pid run
    | other event => exact other_between pid between others run

end

/-- Before the first `kbd_init`, with nobody at the keyboard. -/
def unstarted : Client where
  kbd := ⟨false, 0, 0, 0, 0, fun _ => 0⟩
  kernel := .boot machineRoot fun _ => 0
  killed := false
  answer := none

/-- Pages one after the other. -/
def pagesFrom (n : Nat) : Addr := BitVec.ofNat 64 (0x4000 + 0x1000 * n) &&& addressMask

/-- They are frames. -/
theorem pagesFrom_frame (n : Nat) : IsFrame (pagesFrom n) := by
  rw [IsFrame, pagesFrom, BitVec.and_assoc, BitVec.and_self]

/-- Another process asks for the keyboard meanwhile, in vain. -/
theorem allOrNothing_once : Steps (Client.act pagesFrom 5 firstCaller) (AllOrNothing firstCaller)
    unstarted [.init [.kbMan secondCaller true], .kill] := by
  apply (allOrNothing_iff pagesFrom 5 firstCaller pagesFrom_frame (by decide) unstarted rfl rfl
    [.init [.kbMan secondCaller true], .kill] (by simp [Act.Others, Meanwhile.Others]; decide)).mpr
  have taken : (Calls.kbMan pagesFrom 5 true firstCaller unstarted.kernel).map
      (fun r => r.2.tables.served) = some 4 := by decide +kernel
  rw [steps_cons]
  refine fun s run => ⟨careful_init.mpr fun _ _ =>
    ⟨rfl, by decide, by simp, fun a k call => ?_⟩, ?_⟩
  · rw [call] at taken
    rw [show k.tables.served = 4 from Option.some.inj taken]
    decide
  · rw [steps_cons]
    exact fun s' run' => ⟨fun _ no => (nomatch no), steps_nil⟩

/-- The second start after a `kbd_kill` takes the keyboard and fails. -/
theorem not_always_allOrNothing : ¬ Steps (Client.act pagesFrom 5 firstCaller)
    (AllOrNothing firstCaller) unstarted [.init [], .kill, .init []] := by
  have before : ([.init [], .kill].foldlM (Client.act pagesFrom 5 firstCaller) unstarted).map
      (fun s => (s.killed, s.kernel.currentPid)) = some (true, nobody) := by decide +kernel
  have after : (([.init [], .kill].foldlM (Client.act pagesFrom 5 firstCaller) unstarted).bind
      fun s => s.act pagesFrom 5 firstCaller (.init [])).map (·.answer) = some (some false) := by
    decide +kernel
  obtain ⟨s₁, runs, now⟩ := Option.map_eq_some_iff.mp before
  rw [runs] at after
  obtain ⟨s₂, run, failed⟩ := Option.map_eq_some_iff.mp after
  intro steps
  have both := steps [.init [], .kill] (.init []) [] s₁ s₂ rfl runs run
  have started := (allOrNothing_init.mp both).2 (congrArg Prod.fst now)
      (Or.inl (congrArg Prod.snd now))
  exact absurd (failed.symm.trans started) (by decide)

end Skylight.Prism

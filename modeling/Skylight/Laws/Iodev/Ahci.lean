import Skylight.Iodev.Ahci
import Skylight.Laws.Pmm.Contracts
import Skylight.Laws.Pmm.Pools

/-!
# The command tables of a port

All tables of a port are smaller than a page together with none, so `pmm_alloc_pool` is asked
for no pages at all. What it answers stays free, or is somebody else's.

`tables_owned_iff` is about every manager that a client reaches and every set of drives: the
tables of every port are its own, reserved and apart from all that the manager answers later,
exactly when no port has a drive (`no_pages` is the reason). `machine_configurePort` follows two
ports on the machine. What the controller reads from memory that is somebody else's is not
modelled.
-/

namespace Skylight.Ahci

open Skylight.Pmm RunLength

/-- The memory of the command tables: what was cleared, and what the headers lead to. -/
def Configured.memory (p : Configured) : Set Nat :=
  Set.Ico p.cleared.1 (p.cleared.1 + p.cleared.2) ∪
    {x | ∃ h ∈ p.headers, x ∈ Set.Ico h.tableBase (h.tableBase + cmdTableSize)}

/-- `pmm_alloc_pool` took a byte's page, which was free, for the port and not for the heap. -/
def Configured.Reserved (p : Configured) (x : Nat) : Prop :=
  ∃ f g, Shows p.before f ∧ Shows p.after g ∧ f (x / pageSize) = some .free ∧
    g (x / pageSize) = some .used ∧ x / pageSize * pageSize ∉ p.taken

/-- The tables of a port are its own, among the `ports` and in all that the manager answers from the
state `s` on. -/
structure Configured.Owns (ports : List Configured) (s : State) (p : Configured) : Prop where
  reserved : ∀ x ∈ p.memory, p.Reserved x
  others : ∀ q ∈ ports, q.port ≠ p.port → Disjoint p.memory q.memory
  pages : ∀ q ∈ ports,
    Disjoint p.memory (bytes (q.cmdBase, 1)) ∧ Disjoint p.memory (bytes (q.fisBase, 1))
  later : ∀ c, Relation.ReflTransGen Client.Step (Client.start s) c →
    ∀ b ∈ c.held, Disjoint p.memory (bytes b)

/-- A port with a drive behind it that is present and active. -/
def HasDrive (hba : Hba) (i : Nat) : Prop :=
  hba.portsImplemented.getLsbD i ∧
    (classifyPort (hba.ports i) = .sata ∨ classifyPort (hba.ports i) = .satapi)

/-- The pool of a port was asked for from a sound manager. -/
def Configured.Asked (p : Configured) : Prop :=
  ∃ f m, Manages p.before f ∧
    pmmAllocPool p.before (cmdTableSize / pageSize) m = .ok (p.cleared.1, p.taken, p.after)

section
variable {s s' : State} {f g : PageMap} {m : Malloc} {p : Configured} {ports : List Configured}
  {drivePorts : Nat → DriveHandle} {ms : Nat → Malloc} {hba : Hba} {k n x base : Nat}
  {taken is : List Nat}

/-! ### A pool of no pages -/

/-- The tables of a port are less than a page, and the division forgets the remainder: no page is
asked for. This is where the port's tables come to lie on pages of somebody else's. -/
theorem no_pages : cmdTableSize / pageSize = 0 := by decide

/-- No pages taken, nothing changed. -/
theorem Takes.none (h : Takes f k 0 g) : g = f := by
  obtain ⟨-, -, rfl⟩ := h
  funext j
  exact fill_outside (by omega)

/-- A page becomes used only where it is taken. -/
theorem takesEach_used : ∀ {taken : List Nat} {f g : PageMap}, TakesEach f taken g →
    f k = some .free → g k = some .used → k * pageSize ∈ taken := by
  intro taken
  induction taken with
  | nil =>
    rintro f g rfl free used
    rw [free] at used
    cases used
  | cons p taken ih =>
    intro f g each free used
    rw [TakesEach] at each
    split at each
    · exact List.mem_cons_of_mem _ (ih each free used)
    · obtain ⟨j, f', rfl, takes, each⟩ := each
      by_cases same : j = k
      · rw [same]
        exact List.mem_cons_self ..
      · apply List.mem_cons_of_mem
        apply ih each _ used
        obtain ⟨-, -, rfl⟩ := takes
        rw [fill_outside (by omega)]
        exact free

/-- A pool of no pages takes none but those of the heap. -/
theorem allocPool_none (manages : Manages s f) (run : pmmAllocPool s 0 m = .ok (base, taken, s')) :
    ∃ g, TakesEach f taken g ∧ Manages s' g := by
  obtain ⟨f', each, ans⟩ := (manages.scanPool 0 m).of_ok run
  rcases ans with ⟨-, manages', -⟩ | ⟨k, g, -, takes, manages'⟩
  · exact ⟨f', each, manages'⟩
  · rw [Takes.none takes] at manages'
    exact ⟨f', each, manages'⟩

/-- A list shows one map. -/
theorem shows_unique {f' : PageMap} (h : Shows s f) (h' : Shows s f') : f = f' := by
  obtain ⟨l, hr, rfl⟩ := h
  obtain ⟨l', hr', rfl⟩ := h'
  rw [hr.unique hr']

/-- Nothing is reserved for the tables. -/
theorem Configured.Asked.not_reserved (asked : p.Asked) (x : Nat) : ¬ p.Reserved x := by
  rintro ⟨f, g, before, after, free, used, other⟩
  obtain ⟨f', m, manages, run⟩ := asked
  rw [no_pages] at run
  obtain ⟨g', each, manages'⟩ := allocPool_none manages run
  rw [shows_unique before manages.shows] at free
  rw [shows_unique after manages'.shows] at used
  exact other (takesEach_used each free used)

/-- The tables are some memory. -/
theorem Configured.mem_memory (some : 0 < p.cleared.2) : p.cleared.1 ∈ p.memory :=
  Or.inl ⟨Nat.le_refl _, Nat.lt_add_of_pos_right some⟩

/-! ### The ports with a drive -/

/-- A port is registered when it has a drive, and no other port's handle changes. -/
theorem registerPort_apply (drivePorts : Nat → DriveHandle) (k i : Nat) :
    registerPort hba drivePorts k i =
      if i = k ∧ (classifyPort (hba.ports k) = .sata ∨ classifyPort (hba.ports k) = .satapi) then
        ⟨some (hba.ports k), k, classifyPort (hba.ports k)⟩
      else drivePorts i := by
  unfold registerPort
  cases classifyPort (hba.ports k) <;> simp [Function.update_apply]

open Classical in
/-- The handles after the first `n` ports are probed. -/
theorem probed_apply (n i : Nat) :
    (List.range n).foldl
        (fun drivePorts i =>
          if hba.portsImplemented.getLsbD i then registerPort hba drivePorts i else drivePorts)
        (fun _ => ⟨none, 0, .none⟩) i =
      if i < n ∧ HasDrive hba i then ⟨some (hba.ports i), i, classifyPort (hba.ports i)⟩
      else ⟨none, 0, .none⟩ := by
  induction n with
  | zero => simp
  | succ n ih =>
    rw [List.range_succ, List.foldl_append, List.foldl_cons, List.foldl_nil]
    by_cases implemented : hba.portsImplemented.getLsbD n = true
    · rw [if_pos implemented, registerPort_apply, ih]
      by_cases same : i = n
      · subst same
        simp [HasDrive, implemented]
      · have lt : i < n + 1 ↔ i < n := by omega
        simp [same, lt]
    · rw [if_neg implemented, ih]
      by_cases same : i = n
      · subst same
        simp [HasDrive, implemented]
      · have lt : i < n + 1 ↔ i < n := by omega
        simp [lt]

/-- A port is configured when it has a drive. -/
theorem configured_iff (lt : k < portCount) :
    ¬ ((probePorts hba k).portHba.isNone ∨ (probePorts hba k).portType = .none ∨
      (probePorts hba k).portNumber ≠ k) ↔ HasDrive hba k := by
  rw [probePorts, probed_apply]
  by_cases drive : HasDrive hba k
  · rw [if_pos ⟨lt, drive⟩]
    rcases drive.2 with type | type <;> simp [drive, type]
  · rw [if_neg fun both => drive both.2]
    simp [drive]

/-! ### All ports -/

/-- A page is taken or not. -/
theorem allocPage_manages (manages : Manages s f) :
    Yields OutOfSections (fun r => ∃ g, Manages r.2 g) (pmmAllocPage s) :=
  manages.allocPage.imp fun r ans => by
    rcases ans with ⟨-, manages', -⟩ | ⟨k, g, -, -, manages'⟩
    · exact ⟨f, manages'⟩
    · exact ⟨g, manages'⟩

/-- A port with a drive asks a sound manager for its tables, and leaves it sound. -/
theorem configurePort_yields (manages : Manages s f) (lt : k < portCount) :
    Yields OutOfSections
      (fun r => (∃ g, Manages r.2 g) ∧ (∀ p ∈ r.1, p.Asked ∧ 0 < p.cleared.2) ∧
        (r.1 = none ↔ ¬ HasDrive hba k))
      (configurePort (probePorts hba) m k s) := by
  rw [configurePort]
  by_cases drive : HasDrive hba k
  · have found := (configured_iff lt).mpr drive
    simp only [found, ↓reduceIte]
    apply (allocPage_manages manages).bind
    rintro ⟨newCmdBase, s₁⟩ ⟨f₁, manages₁⟩
    apply (allocPage_manages manages₁).bind
    rintro ⟨newFisBase, s₂⟩ ⟨f₂, manages₂⟩
    cases pool : pmmAllocPool s₂ (cmdTableSize / pageSize) m with
    | error e =>
      have failed := manages₂.scanPool (cmdTableSize / pageSize) m
      rw [pool] at failed
      exact failed
    | ok r =>
      obtain ⟨base, taken, s₃⟩ := r
      have pool' := pool
      rw [no_pages] at pool'
      obtain ⟨g, -, manages₃⟩ := allocPool_none manages₂ pool'
      refine ⟨⟨g, manages₃⟩, ?_, by simp [drive]⟩
      rintro p ⟨⟩
      exact ⟨⟨f₂, m, manages₂, pool⟩, Nat.mul_pos (by decide) (by decide)⟩
  · have skipped := not_not.mp fun found => drive ((configured_iff lt).mp found)
    simp only [skipped, ↓reduceIte]
    exact ⟨⟨f, manages⟩, by simp, by simp [drive]⟩

/-- All ports. -/
theorem configurePorts_yields (manages : Manages s f) (lt : ∀ i ∈ is, i < portCount) :
    Yields OutOfSections
      (fun r => (∃ g, Manages r.2 g) ∧ (∀ p ∈ r.1, p.Asked ∧ 0 < p.cleared.2) ∧
        (r.1 = [] ↔ ∀ i ∈ is, ¬ HasDrive hba i))
      (configurePorts (probePorts hba) ms is s) := by
  induction is generalizing s f with
  | nil => exact ⟨⟨f, manages⟩, by simp, by simp⟩
  | cons i is ih =>
    rw [configurePorts]
    apply (configurePort_yields manages (lt i (List.mem_cons_self ..))).bind
    rintro ⟨port, s₁⟩ ⟨⟨g, manages₁⟩, asked, drive⟩
    apply (ih manages₁ fun j mem => lt j (List.mem_cons_of_mem _ mem)).bind
    rintro ⟨ports, s₂⟩ ⟨sound, askedAll, drives⟩
    refine ⟨sound, ?_, ?_⟩
    · intro p mem
      rcases List.mem_append.mp mem with mem | mem
      · exact asked p (by simpa using mem)
      · exact askedAll p mem
    · show port.toList ++ ports = [] ↔ _
      simp only at drive drives
      rw [List.append_eq_nil_iff, Option.toList_eq_nil_iff, drive, drives, List.forall_mem_cons]

/-- The tables of every port are its own exactly when no port has any: they are never reserved. -/
theorem tables_owned_iff {memory : Nat → Descriptor} {map : List MemoryMapEntry} {s₀ : State}
    {c : Client} (valid : ValidMap map) (start : pmmStart memory map = .ok s₀)
    (run : Relation.ReflTransGen Client.Step (Client.start s₀) c) (hba : Hba)
    (ms : Nat → Malloc) :
    Yields OutOfSections
      (fun r => (∀ p ∈ r.1, p.Owns r.1 r.2) ↔ ∀ i < portCount, ¬ HasDrive hba i)
      (configureAllPorts hba ms c.mem) := by
  obtain ⟨l₀, h₀⟩ := pmmStart_ok valid start
  obtain ⟨f, sound⟩ := Sound.run ⟨_, sound_start h₀⟩ run
  apply (configurePorts_yields sound.manages fun i mem => List.mem_range.mp mem).imp
  rintro ⟨ports, s'⟩ ⟨-, asked, drives⟩
  simp only [List.mem_range] at drives
  rw [← drives]
  constructor
  · intro owns
    cases ports with
    | nil => rfl
    | cons p ports =>
      obtain ⟨asked, some⟩ := asked p (List.mem_cons_self ..)
      have reserved := (owns p (List.mem_cons_self ..)).reserved
      exact absurd (reserved _ (Configured.mem_memory some)) (asked.not_reserved _)
  · rintro rfl p mem
    cases mem

/-! ### On the machine -/

/-- A drive behind each of the first two ports. -/
def twoDrives : Hba := ⟨0b11, fun _ => ⟨0x103, 0x101⟩⟩

/-- The first two ports have a drive. -/
theorem twoDrives_hasDrive : HasDrive twoDrives k ↔ k < 2 := by
  have type : classifyPort (twoDrives.ports k) = .sata := by
    show classifyPort ⟨0x103, 0x101⟩ = .sata
    decide
  rw [HasDrive, type]
  have bits : twoDrives.portsImplemented.getLsbD k = decide (k < 2) := by
    by_cases lt : k < 32
    · exact (by decide : ∀ k < 32, BitVec.getLsbD (0b11 : BitVec 32) k = decide (k < 2)) k lt
    · rw [BitVec.getLsbD_of_ge _ _ (Nat.le_of_not_lt lt)]
      symm
      exact decide_eq_false (by omega)
  simp [bits]

/-- Ports without a drive are passed over. -/
theorem configurePorts_none (lt : ∀ i ∈ is, i < portCount) (none : ∀ i ∈ is, ¬ HasDrive hba i) :
    configurePorts (probePorts hba) ms is s = .ok ([], s) := by
  induction is with
  | nil => rfl
  | cons i is ih =>
    have skipped := not_not.mp fun found =>
      none i (List.mem_cons_self ..) ((configured_iff (lt i (List.mem_cons_self ..))).mp found)
    rw [configurePorts, configurePort]
    simp only [skipped, ↓reduceIte, pure_eq_ok, ok_bind,
      ih (fun j mem => lt j (List.mem_cons_of_mem _ mem)) fun j mem =>
        none j (List.mem_cons_of_mem _ mem)]
    rfl

/-- No pages are locked. -/
theorem machine_noPool {i : Nat} (h : MachineAt i s) (lt : i < 16384) :
    ∃ s', pmmAllocPool s 0 ⟨0, 0⟩ = .ok ((256 + i) * pageSize, [], s') ∧ MachineAt i s' := by
  obtain ⟨c, found, start⟩ := @machine_poolSection _ _ 0 h (by omega)
  refine ⟨{ s with pools := s.pools ++ [⟨0, (256 + i) * pageSize⟩] }, ?_, ?_⟩
  · unfold pmmAllocPool
    simp only [h.1, not_true_eq_false, ↓reduceIte, mallocPages, ok_bind, found, start,
      pmmLockPages, eachPage, pure_eq_ok]
  · obtain ⟨open_, l, hr, hl⟩ := h
    exact ⟨open_, l, hr.congr rfl rfl rfl, hl⟩

/-- A port is given two pages, and for its tables the pages behind them. -/
theorem machine_configurePort {i : Nat} (h : MachineAt i s) (pos : 0 < i) (lt : i < 1000)
    (drive : HasDrive hba k) (isPort : k < portCount) :
    ∃ p s', configurePort (probePorts hba) ⟨0, 0⟩ k s = .ok (some p, s') ∧ MachineAt (i + 2) s' ∧
      p.port = k ∧ p.cmdBase = (256 + i) * pageSize ∧
      p.cleared = ((258 + i) * pageSize, 2 * pageSize) := by
  obtain ⟨s₁, first, h₁, -⟩ := machine_alloc h pos (by omega)
  obtain ⟨s₂, second, h₂, -⟩ := machine_alloc h₁ (by omega) (by omega)
  obtain ⟨s₃, pool, h₃⟩ := machine_noPool h₂ (by omega)
  have found := (configured_iff isPort).mpr drive
  rw [configurePort]
  simp only [found, ↓reduceIte, first, second, ok_bind, no_pages, pool]
  refine ⟨_, _, rfl, h₃, rfl, rfl, ?_⟩
  apply Prod.ext
  · show (256 + (i + 1 + 1)) * pageSize = _
    congr 1
    omega
  · rfl

end

/-- The tables of the first port are cleared in the command list of the second. -/
theorem tables_not_owned : ∃ s₀ p q s', pmmStart machineMemory machineMap = .ok s₀ ∧
    configureAllPorts twoDrives (fun _ => ⟨0, 0⟩) s₀ = .ok ([p, q], s') ∧
    ¬ Disjoint p.memory (bytes (q.cmdBase, 1)) := by
  obtain ⟨s₀, start, h₀, -⟩ := machine_start
  obtain ⟨p, s₁, first, h₁, -, -, cleared⟩ := machine_configurePort (k := 0) h₀ (by omega)
    (by omega) (twoDrives_hasDrive.mpr (by omega)) (by decide)
  obtain ⟨q, s₂, second, h₂, -, base, -⟩ := machine_configurePort (k := 1) h₁ (by omega)
    (by omega) (twoDrives_hasDrive.mpr (by omega)) (by decide)
  have others : ∀ i ∈ List.range' 2 30, 2 ≤ i ∧ i < portCount := by decide
  have rest := @configurePorts_none s₂ (fun _ => ⟨0, 0⟩) twoDrives (List.range' 2 30)
    (fun i mem => (others i mem).2)
    fun i mem drive => absurd (twoDrives_hasDrive.mp drive) (Nat.not_lt.mpr (others i mem).1)
  refine ⟨s₀, p, q, s₂, start, ?_, ?_⟩
  · have ports : List.range portCount = 0 :: 1 :: List.range' 2 30 := by decide
    rw [configureAllPorts, ports, configurePorts, first, ok_bind]
    simp only [configurePorts, second, rest, ok_bind, pure_eq_ok, Option.toList_some]
    rfl
  · intro apart
    apply Set.disjoint_left.mp apart (Configured.mem_memory (by rw [cleared]; decide))
    rw [cleared, base]
    exact ⟨le_rfl, by decide⟩

/-- A drive behind no port. -/
def noDrives : Hba := ⟨0, fun _ => ⟨0, 0⟩⟩

/-- Without a drive every port that is configured has its tables, and with two drives one has
not. -/
theorem tables_owned_iff_drives : ∃ s₀, pmmStart machineMemory machineMap = .ok s₀ ∧
    Yields OutOfSections (fun r => ∀ p ∈ r.1, p.Owns r.1 r.2)
      (configureAllPorts noDrives (fun _ => ⟨0, 0⟩) s₀) ∧
    Yields OutOfSections (fun r => ¬ ∀ p ∈ r.1, p.Owns r.1 r.2)
      (configureAllPorts twoDrives (fun _ => ⟨0, 0⟩) s₀) := by
  obtain ⟨s₀, start, -⟩ := machine_start
  have owned (hba : Hba) :=
    tables_owned_iff machineMap_valid start Relation.ReflTransGen.refl hba fun _ => ⟨0, 0⟩
  have none : ∀ i < portCount, ¬ HasDrive noDrives i := by
    intro i _ drive
    have no : noDrives.portsImplemented.getLsbD i = false := BitVec.getLsbD_zero
    rw [drive.1] at no
    cases no
  refine ⟨s₀, start, (owned noDrives).imp fun r iff => iff.mpr none, (owned twoDrives).imp ?_⟩
  intro r iff all
  exact iff.mp all 0 (by decide) (twoDrives_hasDrive.mpr (by decide))

end Skylight.Ahci

import Skylight.Cpu.Backtrace
import Skylight.Laws.Extra.Conv
import Skylight.Lib.Links

/-!
# The trace ends

The walk goes on to the next frame only when the address it has just printed is not the faulting
one. At a frame that returns to the faulting address it prints this address for ever.

`traces_iff` is about every chain of frames that ends and every sorted table of symbols: the
trace ends, with a line for the faulting address and one for each frame in order, if and only if
no frame returns to the faulting address. The symbol of an address is the last one that does not
begin behind it, which is what the search of the source comes to in a sorted table
(`searchSymbol_eq`). Chains that lead back to themselves, and tables out of order, are not
considered.
-/

namespace Skylight.Backtrace

open X86 (Word)
open Conv (Buffer utoa cString textOf)
open Links (Leads)
open Shell (ascii)

/-- The symbol an address is in: the last one that does not begin behind it. -/
def containing (symbols : List Symbol) (a : Word) : Option Symbol :=
  if a = lastAddr then none else (symbols.filter (·.addr ≤ a)).getLast?

/-- The line for an address. -/
def lineOf (symbols : List Symbol) (a : Word) : List (BitVec 8) :=
  ascii "\t" ++ textOf 16 a.toNat ++
    match containing symbols a with
    | some symbol => ascii " <" ++ symbol.name ++ ascii ">\r\n"
    | none => ascii " <unknown>\r\n"

/-- A table of symbols as it is built: sorted by address, with the last entry behind them. -/
structure Sorted (symbols : List Symbol) : Prop where
  sorted : symbols.Pairwise (·.addr ≤ ·.addr)
  below : ∀ symbol ∈ symbols, symbol.addr ≠ lastAddr

/-- `__symbol_tab` -/
def symbolTab (symbols : List Symbol) : List Symbol := symbols ++ [⟨lastAddr, []⟩]

/-- The address a frame returns to. -/
def returnAddress (mem : Word → Word) (frame : Word) : Word := mem (frame + 8)

/-- The trace ends, with a line for the faulting address and one for each frame in order. -/
def Traces (mem : Word → Word) (symbols : List Symbol) (ctx : BaseFrame) (frames : List Word)
    (itoaBuffer : Buffer) : Prop :=
  ∃ fuel t, printInterruptStacktrace mem (symbolTab symbols) fuel ctx itoaBuffer = some t ∧
    t.printed = ascii "\r\nAttempted stacktrace: interrupt during \r\n" ++
      (ctx.rip :: frames.map (returnAddress mem)).flatMap (lineOf symbols)

section
variable {mem : Word → Word} {symbols : List Symbol} {ctx : BaseFrame} {frames : List Word}
  {itoaBuffer : Buffer} {a f rip : Word} {t : Trace} {fuel : Nat}

/-! ### A line -/

/-- Every address but the last one is below it. -/
theorem lt_lastAddr (ne : a ≠ lastAddr) : a < lastAddr := by
  have other : a.toNat ≠ 0xFFFFFFFFFFFFFFFF := fun same => ne (BitVec.eq_of_toNat_eq same)
  have bound := a.isLt
  show a.toNat < 0xFFFFFFFFFFFFFFFF
  omega

/-- And none is behind it. -/
theorem not_lastAddr_lt : ¬ lastAddr < a := by
  have bound := a.isLt
  show ¬ 0xFFFFFFFFFFFFFFFF < a.toNat
  omega

/-- Behind the address nothing contains it. -/
theorem containing_cons_of_lt {symbol : Symbol} (lt : a < symbol.addr) :
    containing (symbol :: symbols) a = containing symbols a := by
  unfold containing
  rw [List.filter_cons_of_neg (by simpa using lt)]

/-- The next symbol, where it is not behind the address, goes before. -/
theorem containing_cons_cons {symbol next : Symbol} (le : symbol.addr ≤ a) (le' : next.addr ≤ a) :
    containing (symbol :: next :: symbols) a = containing (next :: symbols) a := by
  unfold containing
  rw [List.filter_cons_of_pos (by simpa using le), List.filter_cons_of_pos (by simpa using le'),
    List.getLast?_cons_cons]

/-- A symbol with nothing but later ones behind it contains the address. -/
theorem containing_single {symbol : Symbol} (ne : a ≠ lastAddr) (le : symbol.addr ≤ a)
    (behind : ∀ s ∈ symbols, a < s.addr) : containing (symbol :: symbols) a = some symbol := by
  unfold containing
  have none : symbols.filter (·.addr ≤ a) = [] := by
    apply List.filter_eq_nil_iff.mpr
    intro s mem
    simpa using behind s mem
  rw [if_neg ne, List.filter_cons_of_pos (by simpa using le), none]
  rfl

/-- One round of the search. -/
theorem searchSymbol_cons {symbol next : Symbol} {rest : List Symbol}
    (ne : symbol.addr ≠ lastAddr) :
    searchSymbol a (symbol :: next :: rest) =
      if symbol.addr ≤ a ∧ a < next.addr then some symbol else searchSymbol a (next :: rest) := by
  rw [searchSymbol, if_neg ne]

/-- In a sorted table the search finds the symbol that the address is in: the last one that starts
at it or before. The table's end marker is never an answer. -/
theorem searchSymbol_eq (sorted : Sorted symbols) :
    searchSymbol a (symbolTab symbols) = containing symbols a := by
  obtain ⟨sorted, below⟩ := sorted
  -- The entry behind a symbol bounds it, so the search needs the table one entry longer than the
  -- list.
  induction symbols with
  | nil =>
    unfold containing
    split
    · rfl
    · rfl
  | cons symbol rest ih =>
    rw [List.pairwise_cons] at sorted
    rw [List.forall_mem_cons] at below
    have later := ih sorted.2 below.2
    cases rest with
    | nil =>
      rw [symbolTab, List.cons_append, List.nil_append, searchSymbol_cons below.1]
      by_cases last : a = lastAddr
      · rw [if_neg (fun inside => not_lastAddr_lt (last ▸ inside.2)), containing, if_pos last]
        rfl
      · by_cases le : symbol.addr ≤ a
        · rw [if_pos ⟨le, lt_lastAddr last⟩, containing_single last le (List.forall_mem_nil _)]
        · rw [if_neg (fun inside => le inside.1), containing_cons_of_lt (BitVec.not_le.mp le)]
          exact later
    | cons next rest =>
      rw [symbolTab, List.cons_append] at later ⊢
      rw [List.cons_append, searchSymbol_cons below.1]
      split
      · next inside =>
        have last : a ≠ lastAddr := by
          rintro rfl
          exact not_lastAddr_lt inside.2
        symm
        apply containing_single last inside.1
        intro s mem
        rcases List.mem_cons.mp mem with rfl | mem
        · exact inside.2
        · have le := (List.pairwise_cons.mp sorted.2).1 s mem
          exact Nat.lt_of_lt_of_le inside.2 le
      · next outside =>
        rw [later]
        by_cases le : symbol.addr ≤ a
        · have le' : next.addr ≤ a := BitVec.not_lt.mp fun lt => outside ⟨le, lt⟩
          exact (containing_cons_cons le le').symm
        · exact (containing_cons_of_lt (BitVec.not_le.mp le)).symm

/-- A line is printed for an address. -/
theorem printAddress_eq (sorted : Sorted symbols) (a : Word) (t : Trace) :
    ∃ t', printAddress (symbolTab symbols) a t = some t' ∧
      t'.printed = t.printed ++ lineOf symbols a := by
  obtain ⟨written, run, text⟩ := @Conv.utoa_text 16 (by decide) (by decide) a
    (t.print (ascii "\t")).itoaBuffer 67 (by decide)
  unfold printAddress
  dsimp only
  rw [run, searchSymbol_eq sorted]
  refine ⟨_, rfl, ?_⟩
  unfold lineOf
  dsimp only
  rw [text, show (16 : BitVec 8).toNat = 16 from rfl]
  cases containing symbols a with
  | none => simp only [Trace.print, List.append_assoc]
  | some symbol => simp only [Trace.print, List.append_assoc]

/-! ### The walk -/

/-- The first round prints the faulting address, and goes to the first frame. -/
theorem stacktraceLoop_first (sorted : Sorted symbols) (rbp : Word) (fuel : Nat) (t : Trace) :
    ∃ t', t'.printed = t.printed ++ lineOf symbols ctx.rip ∧
      stacktraceLoop mem (symbolTab symbols) ctx (fuel + 1) rbp ctx.rip t =
        if rbp = 0 then some t'
        else stacktraceLoop mem (symbolTab symbols) ctx fuel rbp (returnAddress mem rbp) t' := by
  obtain ⟨t', line, printed⟩ := printAddress_eq sorted ctx.rip t
  refine ⟨t', printed, ?_⟩
  rw [stacktraceLoop, line, Option.bind_some, if_neg (not_not.mpr rfl)]
  rfl

/-- At a frame that returns to the faulting address the walk stays. -/
theorem stacktraceLoop_stays (some : f ≠ 0) (same : returnAddress mem f = ctx.rip) (fuel : Nat)
    (t : Trace) : stacktraceLoop mem (symbolTab symbols) ctx fuel f ctx.rip t = none := by
  induction fuel generalizing t with
  | zero => rfl
  | succ fuel ih =>
    rw [stacktraceLoop, Option.bind_eq_none_iff]
    intro t' _
    rw [if_neg (not_not.mpr rfl), if_neg some, show mem (f + 8) = ctx.rip from same]
    exact ih t'

/-- From a frame with another return address the walk goes on. -/
theorem stacktraceLoop_moves (sorted : Sorted symbols) (other : returnAddress mem f ≠ ctx.rip)
    (fuel : Nat) (t : Trace) :
    ∃ t', t'.printed = t.printed ++ lineOf symbols (returnAddress mem f) ∧
      stacktraceLoop mem (symbolTab symbols) ctx (fuel + 1) f (returnAddress mem f) t =
        if mem f = 0 then some t'
        else stacktraceLoop mem (symbolTab symbols) ctx fuel (mem f) (returnAddress mem (mem f))
          t' := by
  obtain ⟨t', line, printed⟩ := printAddress_eq sorted (returnAddress mem f) t
  refine ⟨t', printed, ?_⟩
  rw [stacktraceLoop, line, Option.bind_some, if_pos other]
  rfl

/-- The walk from the first of the frames, where none returns to the faulting address. -/
theorem stacktraceLoop_ends (sorted : Sorted symbols) (leads : Leads mem a (f :: frames) 0)
    (real : ∀ g ∈ f :: frames, g ≠ 0)
    (other : ∀ g ∈ f :: frames, returnAddress mem g ≠ ctx.rip) (t : Trace) :
    ∃ t', stacktraceLoop mem (symbolTab symbols) ctx (frames.length + 1) f (returnAddress mem f) t =
        some t' ∧
      t'.printed = t.printed ++
        ((f :: frames).map (returnAddress mem)).flatMap (lineOf symbols) := by
  induction frames generalizing a f t with
  | nil =>
    obtain ⟨t', printed, run⟩ := stacktraceLoop_moves sorted (other f List.mem_cons_self) 0 t
    have last : mem f = 0 := leads.2
    rw [if_pos last] at run
    refine ⟨t', run, ?_⟩
    rw [printed]
    simp
  | cons g frames ih =>
    obtain ⟨t', printed, run⟩ := stacktraceLoop_moves sorted (other f List.mem_cons_self)
      (frames.length + 1) t
    have next : mem f = g := leads.2.1
    rw [List.forall_mem_cons] at real other
    rw [next, if_neg (real.2 g List.mem_cons_self)] at run
    obtain ⟨t'', rest, more⟩ := ih leads.2 real.2 other.2 t'
    refine ⟨t'', run.trans rest, ?_⟩
    rw [more, printed]
    simp only [List.map_cons, List.flatMap_cons, List.append_assoc]

/-- The walk does not end where a frame returns to the faulting address. -/
theorem stacktraceLoop_endless (sorted : Sorted symbols) (leads : Leads mem a (f :: frames) 0)
    (real : ∀ g ∈ f :: frames, g ≠ 0)
    (same : ∃ g ∈ f :: frames, returnAddress mem g = ctx.rip) (fuel : Nat) (t : Trace) :
    stacktraceLoop mem (symbolTab symbols) ctx fuel f (returnAddress mem f) t = none := by
  induction frames generalizing a f fuel t with
  | nil =>
    obtain ⟨g, mem', same⟩ := same
    obtain rfl := List.mem_singleton.mp mem'
    rw [same]
    exact stacktraceLoop_stays (real g mem') same fuel t
  | cons g frames ih =>
    by_cases here : returnAddress mem f = ctx.rip
    · rw [here]
      exact stacktraceLoop_stays (real f List.mem_cons_self) here fuel t
    · cases fuel with
      | zero => rfl
      | succ fuel =>
        obtain ⟨t', -, run⟩ := stacktraceLoop_moves sorted here fuel t
        have next : mem f = g := leads.2.1
        rw [List.forall_mem_cons] at real
        obtain ⟨h, mem', same⟩ := same
        have later : h ∈ g :: frames := by
          rcases List.mem_cons.mp mem' with rfl | later
          · exact absurd same here
          · exact later
        rw [run, next, if_neg (real.2 g List.mem_cons_self)]
        exact ih leads.2 real.2 ⟨h, later, same⟩ fuel t'

/-- The trace ends where no frame returns to the faulting address. -/
theorem traces_of_other (sorted : Sorted symbols) (leads : Leads mem ctx.rbp frames 0)
    (real : ∀ f ∈ frames, f ≠ 0) (itoaBuffer : Buffer)
    (other : ∀ f ∈ frames, returnAddress mem f ≠ ctx.rip) :
    Traces mem symbols ctx frames itoaBuffer := by
  obtain ⟨t', printed, run⟩ := @stacktraceLoop_first mem symbols ctx sorted ctx.rbp
    frames.length ⟨ascii "\r\nAttempted stacktrace: interrupt during \r\n", itoaBuffer⟩
  cases frames with
  | nil =>
    rw [if_pos (show ctx.rbp = 0 from leads)] at run
    refine ⟨1, t', run, ?_⟩
    rw [printed, List.map_nil, List.flatMap_singleton]
  | cons f frames =>
    rw [if_neg (leads.1 ▸ real f List.mem_cons_self), leads.1] at run
    obtain ⟨t'', rest, more⟩ := stacktraceLoop_ends sorted leads real other t'
    refine ⟨(f :: frames).length + 1, t'', ?_, ?_⟩
    · unfold printInterruptStacktrace
      rw [leads.1]
      exact run.trans rest
    · rw [more, printed, List.flatMap_cons, List.append_assoc]

/-- It does not end where one does. -/
theorem not_traces (sorted : Sorted symbols) (leads : Leads mem ctx.rbp frames 0)
    (real : ∀ f ∈ frames, f ≠ 0) (itoaBuffer : Buffer)
    (same : ∃ f ∈ frames, returnAddress mem f = ctx.rip) :
    ¬ Traces mem symbols ctx frames itoaBuffer := by
  rintro ⟨fuel, t, run, -⟩
  cases frames with
  | nil =>
    obtain ⟨f, mem', -⟩ := same
    cases mem'
  | cons f frames =>
    cases fuel with
    | zero => cases run
    | succ fuel =>
      obtain ⟨t', -, round⟩ := @stacktraceLoop_first mem symbols ctx sorted ctx.rbp fuel
        ⟨ascii "\r\nAttempted stacktrace: interrupt during \r\n", itoaBuffer⟩
      rw [if_neg (leads.1 ▸ real f List.mem_cons_self), leads.1,
        stacktraceLoop_endless sorted leads real same] at round
      rw [printInterruptStacktrace, leads.1, round] at run
      cases run

/-- For every chain of frames that ends, the trace does if and only if no frame returns to the
faulting address. -/
theorem traces_iff (sorted : Sorted symbols) (leads : Leads mem ctx.rbp frames 0)
    (real : ∀ f ∈ frames, f ≠ 0) (itoaBuffer : Buffer) :
    Traces mem symbols ctx frames itoaBuffer ↔
      ∀ f ∈ frames, returnAddress mem f ≠ ctx.rip := by
  constructor
  · intro traces f mem' same
    exact not_traces sorted leads real itoaBuffer ⟨f, mem', same⟩ traces
  · exact traces_of_other sorted leads real itoaBuffer

end

/-! ### Frames -/

/-- A frame at `0x7000` that returns to `back`. -/
def oneFrame (back : Word) : Word → Word := fun a => if a = 0x7008 then back else 0

/-- One symbol. -/
def oneSymbol : List Symbol := [⟨0x1000, ascii "kernel_main"⟩]

/-- The table is sorted. -/
theorem oneSymbol_sorted : Sorted oneSymbol where
  sorted := List.pairwise_singleton _ _
  below := by decide

/-- The frame is not at zero. -/
theorem oneFrame_real : ∀ f ∈ [(0x7000 : Word)], f ≠ 0 := List.forall_mem_singleton.mpr (by decide)

/-- It is the only one. -/
theorem oneFrame_leads (back : Word) : Leads (oneFrame back) 0x7000 [0x7000] 0 := ⟨rfl, rfl⟩

/-- A handler called from a function that `kernel_main` called, with a frame of nothing known
behind. -/
def threeFrames : Word → Word := fun a =>
  if a = 0x7000 then 0x7100 else if a = 0x7008 then 0x2010
  else if a = 0x7100 then 0x7200 else if a = 0x7108 then 0x1010
  else if a = 0x7208 then 0x800 else 0

/-- Two symbols. -/
def twoSymbols : List Symbol := [⟨0x1000, ascii "kernel_main"⟩, ⟨0x2000, ascii "printf"⟩]

/-- The table is sorted. -/
theorem twoSymbols_sorted : Sorted twoSymbols where
  sorted := List.pairwise_pair.mpr (by decide)
  below := by decide

/-- Frames that return elsewhere have their lines, in this order. -/
theorem traces_three : Traces threeFrames twoSymbols ⟨0x7000, 0x1004⟩ [0x7000, 0x7100, 0x7200]
    fun _ => 0 := by
  have leads : Leads threeFrames 0x7000 [0x7000, 0x7100, 0x7200] 0 := ⟨rfl, rfl, rfl, rfl⟩
  have elsewhere : ∀ f ∈ [(0x7000 : Word), 0x7100, 0x7200],
      returnAddress threeFrames f ≠ 0x1004 := by
    simp [returnAddress, threeFrames]
  exact (traces_iff twoSymbols_sorted leads (by simp) _).mpr elsewhere

/-- One that returns to the faulting address has it for ever. -/
theorem not_always_traces : ¬ ∀ (mem : Word → Word) (symbols : List Symbol) (ctx : BaseFrame)
    (frames : List Word) (itoaBuffer : Buffer), Sorted symbols → Leads mem ctx.rbp frames 0 →
    (∀ f ∈ frames, f ≠ 0) → Traces mem symbols ctx frames itoaBuffer := by
  intro all
  have traces := all (oneFrame 0x1004) oneSymbol ⟨0x7000, 0x1004⟩ [0x7000] (fun _ => 0)
    oneSymbol_sorted (oneFrame_leads _) oneFrame_real
  exact not_traces oneSymbol_sorted (oneFrame_leads 0x1004) oneFrame_real _
    ⟨0x7000, List.mem_singleton_self _, rfl⟩ traces

end Skylight.Backtrace

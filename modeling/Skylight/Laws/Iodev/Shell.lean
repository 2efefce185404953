import Skylight.Iodev.Shell

/-!
# Lines on the serial port

The shell takes its input letter by letter into a buffer that it caps. What it runs is what the
lines say: the letters of a line that can be printed, up to 4095 of them, are a command or none.

`shell_runs_lines` is about every stream of bytes and every content of the buffer before: the
handlers that run are those of the lines that came to their end, each line read by itself.
Letters that are not printed do not count, and from 4095 on neither do the others; nothing
behind the page of the buffer is written. Handlers are events here, since they return to the
shell whatever they print.
-/

namespace Skylight.Shell

/-- The handlers that ran. -/
def executed (events : List Event) : List Command :=
  events.filterMap fun e => match e with
    | .sent _ => none
    | .ran command => some command

def endsLine (c : BitVec 8) : Bool := c = unsupportedLf ∨ c = supportedCr

def printable (c : BitVec 8) : Bool := 0x20 ≤ c ∧ c ≤ 0x7E

/-- What counts of a line. -/
def kept (line : List (BitVec 8)) : List (BitVec 8) := (line.filter printable).take 4095

/-- What a line asks for: the first command of that name. -/
def asked (line : List (BitVec 8)) : Option Command :=
  if kept line = [] then none else
  (commands.findIdx? (· = kept line)).bind (handlers[·]?)

/-- The lines of a stream that came to their end. -/
def lines (stream : List (BitVec 8)) : List (List (BitVec 8)) := (stream.splitOnP endsLine).dropLast

/-- What a stream asks for. -/
def reference (stream : List (BitVec 8)) : List Command := (lines stream).filterMap asked

/-- The shell in a line: the buffer has what counts of it, and nothing behind the page changed. -/
structure InLine (memory : Nat → BitVec 8) (m : State) (line : List (BitVec 8)) : Prop where
  index : m.commandBufferIndex = (kept line).length
  buffer : ∀ (i : Nat) (h : i < (kept line).length), m.commandBuffer i = (kept line)[i]
  outside : ∀ i ≥ pagingPageSize, m.commandBuffer i = memory i

section
variable {memory : Nat → BitVec 8} {m m' : State} {line stream : List (BitVec 8)} {c : BitVec 8}

/-- A change that is seen on the port and in the prompt only. -/
structure Prints (m m' : State) : Prop where
  buffer : m'.commandBuffer = m.commandBuffer
  index : m'.commandBufferIndex = m.commandBufferIndex
  executed : executed m'.events = executed m.events

/-- Events in two parts. -/
theorem executed_append (l l' : List Event) : executed (l ++ l') = executed l ++ executed l' :=
  List.filterMap_append

/-- Bytes sent run nothing. -/
theorem executed_sent (s : List (BitVec 8)) : executed (s.map .sent) = [] := by
  rw [executed, List.filterMap_map, List.filterMap_eq_nil_iff]
  exact fun _ _ => rfl

/-- Two changes that are only seen. -/
theorem Prints.trans {m'' : State} (h : Prints m m') (h' : Prints m' m'') : Prints m m'' :=
  ⟨h'.buffer.trans h.buffer, h'.index.trans h.index, h'.executed.trans h.executed⟩

/-- What is written is only seen. -/
theorem internalWrite_prints (s : List (BitVec 8)) (m : State) : Prints m (internalWrite s m) := by
  rw [internalWrite]
  split
  · exact ⟨rfl, rfl, rfl⟩
  · refine ⟨rfl, rfl, ?_⟩
    rw [executed_append, executed_sent, List.append_nil]

/-- And so is a prompt that goes. -/
theorem cancelPrompt_prints (m : State) : Prints m (cancelPrompt m) := by
  rw [cancelPrompt]
  split
  · exact ⟨rfl, rfl, rfl⟩
  · obtain ⟨buffer, index, executed⟩ :=
      internalWrite_prints (List.replicate shellPrompt.length 8) m
    exact ⟨buffer, index, executed⟩

/-- And one that comes. -/
theorem replacePrompt_prints (m : State) : Prints m (replacePrompt m) := by
  have write (m : State) : Prints m { internalWrite shellPrompt m with promptPlaced := true } := by
    obtain ⟨buffer, index, executed⟩ := internalWrite_prints shellPrompt m
    exact ⟨buffer, index, executed⟩
  rw [replacePrompt]
  split
  · exact (cancelPrompt_prints m).trans (write _)
  · exact write m

/-- And a text with both. -/
theorem shellWrite_prints (s : List (BitVec 8)) (m : State) : Prints m (shellWrite s m) := by
  rw [shellWrite]
  split
  · exact cancelPrompt_prints m
  · exact (cancelPrompt_prints m).trans
      ((internalWrite_prints s _).trans (replacePrompt_prints _))

/-! ### A command -/

/-- No NUL can be typed. -/
theorem kept_ne_zero (mem : c ∈ kept line) : c ≠ 0 := by
  have shown := (List.mem_filter.mp (List.mem_of_mem_take mem)).2
  rintro rfl
  exact absurd shown (by decide)

/-- The match with a command compares the whole text. -/
theorem commandMatch_iff {text command : List (BitVec 8)} {input : Nat → BitVec 8}
    (chars : ∀ (i : Nat) (h : i < text.length), input i = text[i]) (nul : input text.length = 0)
    (some : ∀ c ∈ text, c ≠ 0) (named : ∀ c ∈ command, c ≠ 0) :
    commandMatch input command = true ↔ command = text := by
  induction command generalizing text input with
  | nil =>
    cases text with
    | nil => simpa [commandMatch] using nul
    | cons t text =>
      have first := chars 0 (Nat.succ_pos _)
      simpa [commandMatch, first] using some t List.mem_cons_self
  | cons c command ih =>
    cases text with
    | nil =>
      have zero : input 0 = 0 := nul
      simpa [commandMatch, zero] using fun same => absurd same.symm (named c List.mem_cons_self)
    | cons t text =>
      have first : input 0 = t := chars 0 (Nat.succ_pos _)
      have rest := @ih text (fun i => input (i + 1))
        (fun i h => chars (i + 1) (Nat.succ_lt_succ h)) nul
        (fun c mem => some c (List.mem_cons_of_mem _ mem))
        (fun c mem => named c (List.mem_cons_of_mem _ mem))
      rw [commandMatch, first, List.cons.injEq]
      by_cases same : t = c
      · rw [if_neg (not_not.mpr same), rest, and_iff_right same.symm]
      · rw [if_pos same]
        simp [Ne.symm same]

/-- No command has a NUL in it. -/
theorem commands_named : ∀ command ∈ commands, ∀ c ∈ command, c ≠ 0 := by
  have all : commands.all (fun command => command.all (· != 0)) = true := by decide +kernel
  intro command mem c hc
  exact bne_iff_ne.mp (List.all_eq_true.mp (List.all_eq_true.mp all command mem) c hc)

/-- Searches with the same test. -/
theorem findIdx_congr {α : Type*} {p q : α → Bool} {l : List α} (same : ∀ a ∈ l, p a = q a) :
    l.findIdx? p = l.findIdx? q := by
  induction l with
  | nil => rfl
  | cons a l ih =>
    rw [List.findIdx?_cons, List.findIdx?_cons, same a List.mem_cons_self]
    rw [ih fun b mem => same b (List.mem_cons_of_mem _ mem)]

/-- A line counts up to 4095 letters. -/
theorem kept_length (line : List (BitVec 8)) : (kept line).length ≤ 4095 := List.length_take_le _ _

/-- What is only seen leaves the line. -/
theorem InLine.of_prints (h : InLine memory m line) (p : Prints m m') : InLine memory m' line where
  index := p.index.trans h.index
  buffer i lt := (congrFun p.buffer i).trans (h.buffer i lt)
  outside i far := (congrFun p.buffer i).trans (h.outside i far)

/-- A cleared buffer is at the beginning of a line. -/
theorem clearBuffer_inLine (outside : ∀ i ≥ pagingPageSize, m.commandBuffer i = memory i) :
    InLine memory (clearBuffer m) [] where
  index := rfl
  buffer i lt := absurd lt (Nat.not_lt_zero i)
  outside i far := by
    show (if i < pagingPageSize then _ else _) = _
    rw [if_neg (Nat.not_lt.mpr far), outside i far]

/-- A command runs its handler. -/
theorem commandExecute_executed (i : Nat) (m : State) :
    executed (commandExecute i m).events = executed m.events ++ handlers[i]?.toList ∧
    (commandExecute i m).commandBuffer = m.commandBuffer := by
  rw [commandExecute]
  cases handlers[i]? with
  | none => exact ⟨(List.append_nil _).symm, rfl⟩
  | some command => exact ⟨executed_append _ _, rfl⟩

/-- At its end a line is searched for as a whole, and the buffer starts anew. -/
theorem commandFinalize_spec (h : InLine memory m line) :
    InLine memory (commandFinalize m) [] ∧
    executed (commandFinalize m).events = executed m.events ++ (asked line).toList := by
  have zero : m.commandBufferIndex = 0 ↔ kept line = [] := by
    rw [h.index, List.length_eq_zero_iff]
  rw [commandFinalize]
  by_cases empty : kept line = []
  · have prints := replacePrompt_prints { m with promptPlaced := false }
    rw [if_pos (zero.mpr empty), asked, if_pos empty]
    refine ⟨?_, prints.executed.trans (List.append_nil _).symm⟩
    have same : InLine memory { m with promptPlaced := false } [] := by
      refine ⟨h.index.trans (congrArg List.length empty), fun i lt => ?_, h.outside⟩
      exact absurd lt (Nat.not_lt_zero i)
    exact same.of_prints prints
  · rw [if_neg (mt zero.mp empty)]
    dsimp only
    set buffer := Function.update m.commandBuffer m.commandBufferIndex 0 with buffer_def
    rw [h.index] at buffer_def
    have le := kept_length line
    have outside : ∀ i ≥ pagingPageSize, buffer i = memory i := by
      intro i far
      have other : i ≠ (kept line).length := by
        rw [pagingPageSize] at far
        omega
      rw [buffer_def, Function.update_of_ne other, h.outside i far]
    have found : commands.findIdx? (commandMatch buffer) = commands.findIdx? (· = kept line) := by
      apply findIdx_congr
      intro command mem
      rw [Bool.eq_iff_iff, decide_eq_true_iff]
      apply commandMatch_iff
      · intro i lt
        rw [buffer_def, Function.update_of_ne (Nat.ne_of_lt lt), h.buffer i lt]
      · rw [buffer_def, Function.update_self]
      · exact fun c => kept_ne_zero
      · exact commands_named command mem
    rw [found, asked, if_neg empty]
    cases commands.findIdx? (· = kept line) with
    | none =>
      have prints := shellWrite_prints (ascii "Unknown command...\r\n")
          { m with commandBuffer := buffer }
      constructor
      · apply clearBuffer_inLine
        rw [prints.buffer]
        exact outside
      · exact prints.executed.trans (List.append_nil _).symm
    | some i =>
      obtain ⟨ran, kept⟩ := commandExecute_executed i { m with commandBuffer := buffer }
      have prints := replacePrompt_prints
        { commandExecute i { m with commandBuffer := buffer } with promptPlaced := false }
      constructor
      · apply clearBuffer_inLine
        rw [prints.buffer]
        show ∀ i ≥ _, (commandExecute _ _).commandBuffer i = _
        rw [kept]
        exact outside
      · exact prints.executed.trans ran

/-! ### A letter -/

/-- One letter more. -/
theorem kept_append (line : List (BitVec 8)) (c : BitVec 8) : kept (line ++ [c]) =
    if printable c ∧ (kept line).length < 4095 then kept line ++ [c] else kept line := by
  rw [kept, kept, List.filter_append, List.take_append, List.length_take]
  by_cases shown : printable c = true
  · rw [List.filter_singleton, shown]
    by_cases room : (line.filter printable).length < 4095
    · rw [if_pos ⟨rfl, by omega⟩]
      rw [show 4095 - (line.filter printable).length = 4095 - (line.filter printable).length - 1 + 1
        by omega, cond_true, List.take_succ_cons, List.take_nil]
    · rw [if_neg (by omega), Nat.sub_eq_zero_of_le (Nat.not_lt.mp room), List.take_zero,
        List.append_nil]
  · rw [List.filter_singleton, Bool.not_eq_true _ |>.mp shown,
      if_neg (fun h => absurd h.1 (by simp))]
    simp

/-- The end of a line. -/
theorem handleCharacter_ends (ends : endsLine c = true) :
    handleCharacter m c = commandFinalize (internalWrite (ascii "\r\n") m) :=
  if_pos (of_decide_eq_true ends)

/-- A letter inside of a line. -/
theorem handleCharacter_letter (h : InLine memory m line) (inside : endsLine c = false) :
    InLine memory (handleCharacter m c) (line ++ [c]) ∧
    executed (handleCharacter m c).events = executed m.events := by
  have letter : ¬ (c = unsupportedLf ∨ c = supportedCr) := of_decide_eq_false inside
  have le := kept_length line
  rw [handleCharacter, if_neg letter]
  by_cases shown : printable c = true
  · have range : ¬ ((c < 0x20 ∨ c > 0x7E) ∧ c ≠ supportedCr) := by
      have ⟨low, high⟩ := of_decide_eq_true shown
      rintro ⟨out, -⟩
      bv_omega
    rw [if_neg range, if_neg fun cr => letter (Or.inr cr)]
    dsimp only
    have prints := internalWrite_prints [c] m
    have same := h.of_prints prints
    rw [commandBufferAppend, same.index]
    by_cases room : (kept line).length ≤ uartshBufferMax
    · have more : kept (line ++ [c]) = kept line ++ [c] := by
        rw [kept_append, if_pos ⟨shown, Nat.lt_succ_of_le room⟩]
      rw [if_pos room]
      refine ⟨⟨?_, fun i lt => ?_, fun i far => ?_⟩, prints.executed⟩
      · rw [more, List.length_append]
        rfl
      · show Function.update _ _ _ i = _
        by_cases last : i = (kept line).length
        · subst last
          simp only [more]
          rw [Function.update_self, List.getElem_concat_length rfl]
        · rw [Function.update_of_ne last]
          have lt' : i < (kept line).length := by
            rw [more, List.length_append, List.length_singleton] at lt
            omega
          simp only [more]
          rw [List.getElem_append_left lt', same.buffer i lt']
      · have other : i ≠ (kept line).length := by
          rw [pagingPageSize] at far
          omega
        show Function.update _ _ _ i = _
        rw [Function.update_of_ne other, same.outside i far]
    · have full : kept (line ++ [c]) = kept line := by
        rw [kept_append, if_neg fun h => room (Nat.le_of_lt_succ h.2)]
      rw [if_neg room]
      refine ⟨⟨?_, ?_, same.outside⟩, prints.executed⟩
      · rw [full, same.index]
      · simp only [full]
        exact same.buffer
  · have range : (c < 0x20 ∨ c > 0x7E) ∧ c ≠ supportedCr := by
      refine ⟨?_, fun cr => letter (Or.inr cr)⟩
      by_contra no
      apply shown
      rw [printable, decide_eq_true_iff]
      bv_omega
    have none : kept (line ++ [c]) = kept line := by
      rw [kept_append, if_neg fun h => shown h.1]
    rw [if_pos range]
    refine ⟨⟨?_, ?_, h.outside⟩, rfl⟩
    · rw [none, h.index]
    · simp only [none]
      exact h.buffer

/-! ### A stream -/

/-- No line has ended. -/
theorem lines_nil (inside : ∀ c ∈ line, endsLine c = false) : lines line = [] := by
  rw [lines, List.splitOnP_eq_singleton inside]
  rfl

/-- The first line, and the others. -/
theorem lines_cons (inside : ∀ c ∈ line, endsLine c = false) (ends : endsLine c = true)
    (stream : List (BitVec 8)) : lines (line ++ c :: stream) = line :: lines stream := by
  rw [lines, List.splitOnP_append_cons _ _ ends, List.splitOnP_eq_singleton inside]
  rw [List.singleton_append, List.dropLast_cons_of_ne_nil (List.splitOnP_ne_nil _ _)]
  rfl

/-- What a line asks for is its own business. -/
theorem reference_append (before : List (BitVec 8)) (ends : endsLine c = true)
    (stream : List (BitVec 8)) :
    reference (before ++ c :: stream) = reference (before ++ [c]) ++ reference stream := by
  have first : lines (before ++ [c]) = before.splitOnP endsLine := by
    rw [lines, List.splitOnP_append_cons _ _ ends, List.splitOnP_nil, List.dropLast_concat]
  rw [reference, reference, reference, first, ← List.filterMap_append, lines, lines,
    List.splitOnP_append_cons _ _ ends, List.dropLast_append_of_ne_nil (List.splitOnP_ne_nil _ _)]

/-- A stream, from within a line. -/
theorem InLine.run (h : InLine memory m line) (inside : ∀ c ∈ line, endsLine c = false)
    (stream : List (BitVec 8)) :
    executed (m.run stream).events = executed m.events ++ reference (line ++ stream) ∧
    ∃ line', InLine memory (m.run stream) line' := by
  -- `line` is what has been typed since the last end of a line, which the stream goes on from.
  induction stream generalizing m line with
  | nil =>
    rw [List.append_nil, reference, lines_nil inside]
    exact ⟨(List.append_nil _).symm, line, h⟩
  | cons c stream ih =>
    rw [State.run, List.foldl_cons]
    cases ends : endsLine c with
    | true =>
      rw [handleCharacter_ends ends]
      have prints := internalWrite_prints (ascii "\r\n") m
      obtain ⟨anew, ran⟩ := commandFinalize_spec (h.of_prints prints)
      obtain ⟨all, last⟩ := ih anew (fun c mem => absurd mem (List.not_mem_nil))
      refine ⟨all.trans ?_, last⟩
      rw [ran, prints.executed, reference, reference, lines_cons inside ends, List.append_assoc]
      cases found : asked line with
      | none => rw [List.filterMap_cons_none found]; rfl
      | some command => rw [List.filterMap_cons_some found]; rfl
    | false =>
      obtain ⟨next, same⟩ := handleCharacter_letter h ends
      have inside' : ∀ d ∈ line ++ [c], endsLine d = false := by
        intro d mem
        rcases List.mem_append.mp mem with old | new
        · exact inside d old
        · rw [List.mem_singleton.mp new]
          exact ends
      obtain ⟨all, last⟩ := ih next inside'
      refine ⟨all.trans ?_, last⟩
      rw [same, List.append_assoc]
      rfl

/-- The shell starts in an empty line. -/
theorem shellStart_inLine (outPort : BitVec 16) (memory : Nat → BitVec 8) :
    InLine memory (shellStart outPort memory) [] ∧
    executed (shellStart outPort memory).events = [] := by
  have prints := replacePrompt_prints
    { promptPlaced := false, outputPort := outPort
      commandBuffer := fun i => if i < pagingPageSize then 0 else memory i
      commandBufferIndex := 0, events := [] }
  refine ⟨InLine.of_prints ⟨rfl, fun i lt => ?_, fun i far => ?_⟩ prints, prints.executed⟩
  · exact absurd lt (Nat.not_lt_zero i)
  · exact if_neg (Nat.not_lt.mpr far)

/-- What a stream runs. -/
theorem run_executed (outPort : BitVec 16) (memory : Nat → BitVec 8) (stream : List (BitVec 8)) :
    executed ((shellStart outPort memory).run stream).events = reference stream := by
  obtain ⟨start, none⟩ := shellStart_inLine outPort memory
  have all := (start.run (fun c mem => absurd mem List.not_mem_nil) stream).1
  rw [none, List.nil_append] at all
  exact all

/-- Every stream runs the handlers that its lines ask for, a line as if no other had come before,
and writes stay in the page. -/
theorem shell_runs_lines (outPort : BitVec 16) (memory : Nat → BitVec 8)
    (stream : List (BitVec 8)) :
    executed ((shellStart outPort memory).run stream).events = reference stream ∧
    (∀ before c after, stream = before ++ c :: after → endsLine c = true →
      executed ((shellStart outPort memory).run stream).events =
        executed ((shellStart outPort memory).run (before ++ [c])).events ++
          executed ((shellStart outPort memory).run after).events) ∧
    ((shellStart outPort memory).run stream).commandBufferIndex < 4096 ∧
    ∀ i ≥ 4096, ((shellStart outPort memory).run stream).commandBuffer i = memory i := by
  obtain ⟨start, -⟩ := shellStart_inLine outPort memory
  obtain ⟨-, line, last⟩ := start.run (fun c mem => absurd mem List.not_mem_nil) stream
  refine ⟨run_executed outPort memory stream, ?_, ?_, last.outside⟩
  · intro before c after split ends
    rw [split, run_executed, run_executed, run_executed, reference_append before ends]
  · rw [last.index]
    exact Nat.lt_succ_of_le (kept_length line)

end

/-- Two commands, with an unknown one between them that begins like a known one. -/
theorem shell_runs_ping : executed ((shellStart 1 fun _ => 0xFF).run
    (ascii "ping\r\nidtx\n" ++ 0x0D :: ascii "idt\r")).events = [.ping, .dumpIdt] := by
  obtain ⟨-, lines, -⟩ := shell_runs_lines 1 (fun _ => 0xFF)
    (ascii "ping\r\nidtx\n" ++ 0x0D :: ascii "idt\r")
  rw [lines _ _ _ rfl (by decide), run_executed, run_executed]
  decide +kernel

end Skylight.Shell

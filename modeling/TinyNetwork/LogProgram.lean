import TinyNetwork.LogBackEnd
import TinyNetwork.Logger

/-! A program that logs, from the statement to the file, put together as in
`logger/TestLogger.cc`: the statements of `logger/Logging.h` on any threads, `g_output` that may be
set to `asyncLog`, and `AsyncLogging` with its files behind it. What a statement hands out is the
whole array of its stream, and what the back end writes is the whole array of a buffer; so a file
is made of arrays of `kLargeBuffer` bytes, these of cells of `kSmallBuffer` bytes, and a record
stands at the start of each cell. -/
namespace TinyNetwork
open Transition MachineWord ByteMemory Logger

inductive OutputFunc where
  | defaultOutput
  | asyncLog
  deriving DecidableEq

structure LogStatement where
  kind : LogMacro
  surroundings : Surroundings
  file : ℕ
  line : ℤ
  func : ℕ
  values : List Insertion

/-- `g_asyncLog` is null until it is set. `records` are the texts of the records that `asyncLog`
appended, in order; a record that `defaultOutput` printed, or that found `g_asyncLog` null, is not
among them. -/
structure LogProgram where
  g_logLevel : LogLevel
  g_output : OutputFunc
  g_asyncLog : Bool
  stdout : List Byte
  aborted : Bool
  backEnd : LogBackEnd kLargeBuffer
  records : List (List Byte)

namespace Logger

def LogMacro.passes (g_logLevel : LogLevel) : LogMacro → Bool
  | .LOG_DEBUG => g_logLevel.number ≤ LogLevel.DEBUG.number
  | .LOG_INFO => g_logLevel.number ≤ LogLevel.INFO.number
  | _ => true

end Logger

namespace AsyncLogging
variable {SIZE : ℕ} {l l' : AsyncLogging SIZE}

theorem next_chunks {a : Action SIZE} (h : Valid l) (hn : next l a = some l')
    (silent : ∀ line memory, a ≠ .append line memory) :
    l'.chunks = l.chunks ∨ l'.chunks = l.chunks ++ [[]] := by
  have phase := h.phase
  cases a with
  | start m₁ m₂ =>
    obtain ⟨at_, rfl⟩ := guard_met hn
    exact .inl (by simp only [chunks, unwritten, frontEnd, start, progress, at_])
  | append line memory => exact absurd rfl (silent line memory)
  | test =>
    obtain ⟨at_, rfl⟩ := guard_met hn
    left
    split_ifs <;> simp only [chunks, unwritten, frontEnd, progress, at_]
  | lock =>
    obtain ⟨at_, rfl⟩ := guard_met hn
    simp only [Phase, at_] at phase
    split_ifs
    · exact .inl (by simp only [chunks, unwritten, frontEnd, progress, at_])
    · exact .inr (swap_chunks h phase)
  | wake =>
    obtain ⟨at_, rfl⟩ := guard_met hn
    simp only [Phase, at_] at phase
    exact .inr (swap_chunks h phase)
  | write =>
    simp only [next] at hn
    split at hn
    · next k at_ => exact .inl (write_chunks at_ hn)
    · cases hn
  | recycle =>
    simp only [next] at hn
    split_ifs at hn with at_
    exact .inl (recycle_chunks at_ hn)
  | stop =>
    obtain ⟨-, rfl⟩ := guard_met hn
    exact .inl rfl

theorem append_room {logline : List Byte} {memory : Memory SIZE} (h : Valid l)
    (positive : 0 < SIZE) (room : ∀ c ∈ l.chunks, c.length < SIZE)
    (hl : l.append logline memory = some l') : ∀ c ∈ l'.chunks, c.length < SIZE := by
  obtain ⟨current, some_, rfl⟩ := Option.map_eq_some_iff.mp hl
  simp only [chunks, unwritten, frontEnd, some_, bytes_some, List.forall_mem_append,
    List.forall_mem_singleton] at room
  obtain ⟨⟨written, unwritten_⟩, full, last⟩ := room
  split_ifs with fits
  · have taken : (current.append logline).content.length < SIZE := by
      rw [FixedBuffer.append_content fits, List.length_append, FixedBuffer.content_length]
      unfold FixedBuffer.avail at fits
      omega
    simp only [chunks, unwritten, frontEnd, bytes_some, List.forall_mem_append,
      List.forall_mem_singleton]
    exact ⟨⟨written, unwritten_⟩, full, taken⟩
  · have spare : (l.nextBuffer_.getD (allocate memory)).content = [] := by
      have blank := h.nextBlank
      cases next_ : l.nextBuffer_ with
      | none => exact FixedBuffer.construct_content _ _
      | some b => simpa [Blank, bytes, next_] using blank
    have taken : ((l.nextBuffer_.getD (allocate memory)).append logline).content.length < SIZE := by
      rw [append_blank spare logline]
      split_ifs with short
      · exact short
      · exact positive
    simp only [chunks, unwritten, frontEnd, List.map_append, List.map_cons, List.map_nil,
      bytes_some, List.forall_mem_append, List.forall_mem_singleton]
    exact ⟨⟨written, unwritten_⟩, ⟨full, last⟩, taken⟩

/-- No buffer is ever filled to its last byte. -/
theorem chunks_room {ok : AsyncLogging SIZE → Action SIZE → Prop} (positive : 0 < SIZE)
    (h : (logging SIZE).Reachable ok l) : ∀ c ∈ l.chunks, c.length < SIZE := by
  refine h.invariant_under (P := fun l => ∀ c ∈ l.chunks, c.length < SIZE)
    (fun _ hl => logging_valid hl) (fun l first => ?_) fun l a l' valid room _ hn => ?_
  · obtain ⟨m₁, m₂, rfl⟩ := first
    have blank := blank_allocated m₁
    simp only [Blank] at blank
    simp only [chunks, unwritten, frontEnd, construct, progress, blank]
    simpa using positive
  · by_cases line : ∃ logline memory, a = .append logline memory
    · obtain ⟨logline, memory, rfl⟩ := line
      exact append_room valid positive room hn
    · rcases next_chunks valid hn fun logline memory app => line ⟨logline, memory, app⟩ with
        same | fresh
      · exact same ▸ room
      · rw [fresh, List.forall_mem_append, List.forall_mem_singleton]
        exact ⟨room, positive⟩

end AsyncLogging

namespace LogProgram

inductive Action where
  | setLogLevel (level : LogLevel)
  | setOutput (out : OutputFunc)
  | setAsyncLog (present : Bool)
  | log (statement : LogStatement) (fuel : ℕ) (memory : AsyncLogging.Memory kLargeBuffer)
  | back (a : LogBackEnd.Action kLargeBuffer)

def appends : LogBackEnd.Action kLargeBuffer → Bool
  | .front (.append _ _) => true
  | _ => false

variable (timebuf getErrnoMsg : ℤ → String) (basename : String) (rollSize : ℤ)

def construct (m₁ m₂ : AsyncLogging.Memory kLargeBuffer) : LogProgram where
  g_logLevel := .INFO
  g_output := .defaultOutput
  g_asyncLog := false
  stdout := []
  aborted := false
  backEnd := ⟨AsyncLogging.construct m₁ m₂, none⟩
  records := []

def asyncLog (s : LogProgram) (text msg : List Byte) (memory : AsyncLogging.Memory kLargeBuffer) :
    Option LogProgram :=
  if s.g_asyncLog then
    (LogBackEnd.next timebuf getErrnoMsg basename rollSize s.backEnd
      (.front (.append msg memory))).map fun backEnd =>
        { s with backEnd := backEnd, records := s.records ++ [text] }
  else some s

def perform (text : List Byte) (memory : AsyncLogging.Memory kLargeBuffer) (s : LogProgram) :
    Effect → Option LogProgram
  | .g_output msg =>
    match s.g_output with
    | .defaultOutput => some { s with stdout := s.stdout ++ msg }
    | .asyncLog => s.asyncLog timebuf getErrnoMsg basename rollSize text msg memory
  | .g_flush => some s
  | .abort => some { s with aborted := true }

def performAll (text : List Byte) (memory : AsyncLogging.Memory kLargeBuffer) :
    LogProgram → List Effect → Option LogProgram
  | s, [] => some s
  | s, e :: effects =>
    (perform timebuf getErrnoMsg basename rollSize text memory s e).bind fun s =>
      performAll text memory s effects

def log (s : LogProgram) (statement : LogStatement) (fuel : ℕ)
    (memory : AsyncLogging.Memory kLargeBuffer) : Option LogProgram :=
  if statement.kind.passes s.g_logLevel then
    (statement.kind.statement statement.surroundings fuel statement.file statement.line
      statement.func statement.values).bind fun outcome =>
        performAll timebuf getErrnoMsg basename rollSize outcome.stream.buffer_.content memory s
          outcome.effects
  else some s

/-- Nothing runs any more in an aborted process. -/
def next (s : LogProgram) (a : Action) : Option LogProgram :=
  if s.aborted then none
  else
    match a with
    | .setLogLevel level => some { s with g_logLevel := level }
    | .setOutput out => some { s with g_output := out }
    | .setAsyncLog present => some { s with g_asyncLog := present }
    | .log statement fuel memory =>
      s.log timebuf getErrnoMsg basename rollSize statement fuel memory
    | .back a =>
      if appends a then none
      else (LogBackEnd.next timebuf getErrnoMsg basename rollSize s.backEnd a).map fun backEnd =>
        { s with backEnd := backEnd }

def logProgram : System LogProgram Action where
  init s := ∃ m₁ m₂, s = construct m₁ m₂
  next := next timebuf getErrnoMsg basename rollSize

def Orderly (s : LogProgram) : Action → Prop
  | .back a => LogBackEnd.Orderly s.backEnd a
  | _ => True

section Effects
variable {w : Surroundings} {fuel file func : ℕ} {line : ℤ} {values : List Insertion}
  {impl impl' : LoggerImpl}

theorem construct_level (e : ℤ)
    (h : LoggerImpl.construct w fuel .INFO e file line = some impl) : impl.level_ = .INFO := by
  obtain ⟨b, -, rfl⟩ := Option.map_eq_some_iff.mp h
  rfl

theorem insert_level (h : impl.insert w fuel values = some impl') :
    impl'.level_ = impl.level_ := by
  obtain ⟨s, -, rfl⟩ := Option.map_eq_some_iff.mp h
  rfl

theorem macro_level {a : LogMacro} (h : a.construct w fuel file line func = some impl) :
    impl.level_ = .INFO := by
  cases a with
  | LOG_DEBUG =>
    obtain ⟨first, made, inserted⟩ := Option.bind_eq_some_iff.mp h
    exact (insert_level inserted).trans (construct_level _ made)
  | LOG_INFO => exact construct_level 0 h
  | LOG_WARN => exact construct_level LogLevel.WARN.number h
  | LOG_ERROR => exact construct_level LogLevel.ERROR.number h
  | LOG_FATAL => exact construct_level LogLevel.FATAL.number h

theorem statement_effects {a : LogMacro} {outcome : Outcome}
    (h : a.statement w fuel file line func values = some outcome) :
    outcome.effects = [.g_output outcome.stream.buffer_.handedOut] := by
  obtain ⟨impl, made, destroyed⟩ := Option.bind_eq_some_iff.mp h
  obtain ⟨first, constructed, inserted⟩ := Option.bind_eq_some_iff.mp made
  obtain ⟨last, finished, rfl⟩ := Option.map_eq_some_iff.mp destroyed
  have level : last.level_ = .INFO :=
    (insert_level finished).trans ((insert_level inserted).trans (macro_level constructed))
  have quiet : last.level_ ≠ .FATAL := by
    rw [level]
    decide
  exact congrArg _ (if_neg quiet)

end Effects

section Steps
variable {timebuf getErrnoMsg : ℤ → String} {basename : String} {rollSize : ℤ}
  {s t : LogProgram} {b : LogBackEnd kLargeBuffer}

theorem log_cases {statement : LogStatement} {fuel : ℕ}
    {memory : AsyncLogging.Memory kLargeBuffer}
    (hl : s.log timebuf getErrnoMsg basename rollSize statement fuel memory = some t) :
    (∃ more, t = { s with stdout := s.stdout ++ more }) ∨
    ∃ text msg backEnd, LogBackEnd.Image kSmallBuffer text msg ∧
      LogBackEnd.next timebuf getErrnoMsg basename rollSize s.backEnd
        (.front (.append msg memory)) = some backEnd ∧
      t = { s with backEnd := backEnd, records := s.records ++ [text] } := by
  have unchanged : ∃ more, s = { s with stdout := s.stdout ++ more } :=
    ⟨[], by rw [List.append_nil]⟩
  unfold log at hl
  split_ifs at hl with passes
  · obtain ⟨outcome, made, hl⟩ := Option.bind_eq_some_iff.mp hl
    rw [statement_effects made] at hl
    obtain ⟨u, performed, rest⟩ := Option.bind_eq_some_iff.mp hl
    obtain rfl := Option.some.inj rest
    simp only [perform] at performed
    split at performed
    · exact .inl ⟨_, (Option.some.inj performed).symm⟩
    · unfold asyncLog at performed
      split_ifs at performed with set_
      · obtain ⟨backEnd, appended, rfl⟩ := Option.map_eq_some_iff.mp performed
        exact .inr ⟨_, _, backEnd, LogBackEnd.image_handedOut _, appended, rfl⟩
      · exact .inl (Option.some.inj performed ▸ unchanged)
  · exact .inl (Option.some.inj hl ▸ unchanged)

/-- The process goes on, its log is used as it should be, and every line is the array of a stream
with its record at the start. -/
structure Logged (timebuf getErrnoMsg : ℤ → String) (basename : String) (rollSize : ℤ)
    (s : LogProgram) : Prop where
  alive : s.aborted = false
  backEnd : (LogBackEnd.logBackEnd timebuf getErrnoMsg basename rollSize kLargeBuffer).Reachable
    LogBackEnd.Orderly s.backEnd
  lines : List.Forall₂ (LogBackEnd.Image kSmallBuffer) s.records s.backEnd.logging.lines

theorem back_lines {a : LogBackEnd.Action kLargeBuffer} (other : appends a = false)
    (hn : LogBackEnd.next timebuf getErrnoMsg basename rollSize s.backEnd a = some b) :
    b.logging.lines = s.backEnd.logging.lines := by
  have same : ∀ {a l}, AsyncLogging.next s.backEnd.logging a = some l →
      (∀ line memory, a ≠ .append line memory) → l.lines = s.backEnd.logging.lines := by
    intro a l hl silent
    rcases AsyncLogging.next_lines hl with ⟨same, -⟩ | ⟨line, memory, rfl, -⟩
    · exact same
    · exact absurd rfl (silent line memory)
  cases a with
  | front a =>
    simp only [LogBackEnd.next] at hn
    split at hn
    · cases hn
    · cases hn
    · obtain ⟨l, hl, rfl⟩ := Option.map_eq_some_iff.mp hn
      refine same hl fun line memory app => ?_
      rw [app] at other
      cases other
  | start m₁ m₂ now disk =>
    obtain ⟨l, hl, rfl⟩ := Option.map_eq_some_iff.mp hn
    exact same hl (by simp)
  | write now accepts fuel =>
    obtain ⟨buffer, -, hn⟩ := Option.bind_eq_some_iff.mp hn
    obtain ⟨output, -, hn⟩ := Option.bind_eq_some_iff.mp hn
    obtain ⟨output', -, hn⟩ := Option.bind_eq_some_iff.mp hn
    obtain ⟨l, hl, rfl⟩ := Option.map_eq_some_iff.mp hn
    exact same hl (by simp)

theorem Logged.next {a : Action} (held : Logged timebuf getErrnoMsg basename rollSize s)
    (orderly : Orderly s a)
    (hn : next timebuf getErrnoMsg basename rollSize s a = some t) :
    Logged timebuf getErrnoMsg basename rollSize t := by
  have alive : ¬s.aborted := by simp [held.alive]
  unfold LogProgram.next at hn
  rw [if_neg alive] at hn
  cases a with
  | setLogLevel level =>
    cases hn
    exact ⟨held.alive, held.backEnd, held.lines⟩
  | setOutput out =>
    cases hn
    exact ⟨held.alive, held.backEnd, held.lines⟩
  | setAsyncLog present =>
    cases hn
    exact ⟨held.alive, held.backEnd, held.lines⟩
  | log statement fuel memory =>
    rcases log_cases hn with ⟨more, rfl⟩ | ⟨text, msg, backEnd, image, appended, rfl⟩
    · exact ⟨held.alive, held.backEnd, held.lines⟩
    · have short : LogBackEnd.Orderly s.backEnd (.front (.append msg memory)) := by
        change msg.length < kLargeBuffer
        rw [image.1]
        decide
      refine ⟨held.alive, held.backEnd.path (.single short appended), ?_⟩
      obtain ⟨l, hl, rfl⟩ := Option.map_eq_some_iff.mp appended
      have more : l.lines = s.backEnd.logging.lines ++ [msg] := by
        obtain ⟨current, -, rfl⟩ := Option.map_eq_some_iff.mp hl
        split_ifs <;> rfl
      rw [more]
      exact List.rel_append held.lines (.cons image .nil)
  | back a =>
    dsimp only at hn
    split_ifs at hn with line
    obtain ⟨backEnd, stepped, rfl⟩ := Option.map_eq_some_iff.mp hn
    refine ⟨held.alive, held.backEnd.path (.single orderly stepped), ?_⟩
    rw [back_lines (Bool.not_eq_true _ ▸ line) stepped]
    exact held.lines

theorem logged
    (reached : (logProgram timebuf getErrnoMsg basename rollSize).Reachable Orderly s) :
    Logged timebuf getErrnoMsg basename rollSize s := by
  refine reached.invariant (P := Logged timebuf getErrnoMsg basename rollSize)
    (fun s first => ?_) fun s a t held orderly hn => held.next orderly hn
  obtain ⟨m₁, m₂, rfl⟩ := first
  exact ⟨rfl, .initial ⟨⟨m₁, m₂, rfl⟩, rfl⟩, .nil⟩

end Steps

section Layout
open LogBackEnd

structure Laid (texts : List (List Byte)) (array : List Byte) : Prop where
  sized : array.length = kLargeBuffer
  few : texts.length ≤ 999
  cells : ∀ i, ∀ inside : i < texts.length, texts[i] <+: array.drop (i * kSmallBuffer)

theorem cells_of_images {texts lines : List (List Byte)} {array : List Byte}
    (images : List.Forall₂ (Image kSmallBuffer) texts lines) (front : lines.flatten <+: array) :
    ∀ i, ∀ inside : i < texts.length, texts[i] <+: array.drop (i * kSmallBuffer) := by
  induction images generalizing array with
  | nil => exact fun i inside => absurd inside (Nat.not_lt_zero i)
  | @cons text line texts lines image _ ih =>
    obtain ⟨sized, starts⟩ := image
    obtain ⟨rear, rfl⟩ := front
    rw [List.flatten_cons, List.append_assoc]
    intro i inside
    cases i with
    | zero =>
      rw [Nat.zero_mul, List.drop_zero]
      exact starts.trans (List.prefix_append _ _)
    | succ i =>
      have past : (line ++ (lines.flatten ++ rear)).drop ((i + 1) * kSmallBuffer) =
          (lines.flatten ++ rear).drop (i * kSmallBuffer) := by
        rw [Nat.succ_mul, Nat.add_comm, ← List.drop_drop, List.drop_left' sized]
      rw [past]
      exact ih (List.prefix_append _ rear) i (Nat.lt_of_succ_lt_succ inside)

theorem flatten_length {texts lines : List (List Byte)}
    (images : List.Forall₂ (Image kSmallBuffer) texts lines) :
    lines.flatten.length = texts.length * kSmallBuffer := by
  induction images with
  | nil => rfl
  | cons image _ ih =>
    rw [List.flatten_cons, List.length_append, image.1, ih, List.length_cons, Nat.succ_mul,
      Nat.add_comm]

theorem laid_of_images {texts lines : List (List Byte)} {array : List Byte}
    (images : List.Forall₂ (Image kSmallBuffer) texts lines)
    (written : Image kLargeBuffer lines.flatten array)
    (room : lines.flatten.length < kLargeBuffer) : Laid texts array := by
  refine ⟨written.1, ?_, cells_of_images images written.2⟩
  rw [flatten_length images] at room
  unfold kLargeBuffer kSmallBuffer at room
  omega

theorem cut_as {α β : Type*} {R : α → β → Prop} {xs : List α} {groups : List (List β)}
    {rest : List β} (related : List.Forall₂ R xs (groups.flatten ++ rest)) :
    ∃ cut left, xs = List.flatten cut ++ left ∧ List.Forall₂ (List.Forall₂ R) cut groups ∧
      List.Forall₂ R left rest := by
  induction groups generalizing xs with
  | nil => exact ⟨[], xs, rfl, .nil, related⟩
  | cons group groups ih =>
    rw [List.flatten_cons, List.append_assoc] at related
    obtain ⟨cut, left, joined, each, later⟩ := ih (List.forall₂_drop_append xs group _ related)
    refine ⟨xs.take group.length :: cut, left, ?_,
      .cons (List.forall₂_take_append xs group _ related) each, later⟩
    rw [List.flatten_cons, List.append_assoc, ← joined, List.take_append_drop]

theorem laid_all {groups cut : List (List (List Byte))} {arrays : List (List Byte)}
    (each : List.Forall₂ (List.Forall₂ (Image kSmallBuffer)) cut groups)
    (written : List.Forall₂ (Image kLargeBuffer) (groups.map List.flatten) arrays)
    (room : ∀ c ∈ groups.map List.flatten, c.length < kLargeBuffer) :
    List.Forall₂ Laid cut arrays := by
  induction each generalizing arrays with
  | nil =>
    cases written
    exact .nil
  | cons images _ ih =>
    rw [List.map_cons] at written room
    rw [List.forall_mem_cons] at room
    obtain _ | ⟨first, others⟩ := written
    exact .cons (laid_of_images images first room.1) (ih others room.2)

end Layout

section Files
variable {timebuf getErrnoMsg : ℤ → String} {basename : String} {rollSize : ℤ}
  {s : LogProgram}

/-- The records, cut as the lines are into those of the buffers written and the rest. -/
theorem Logged.laid (held : Logged timebuf getErrnoMsg basename rollSize s)
    {output : LogSession} (started : s.backEnd.output = some output) :
    ∃ groups rest lines, s.records = List.flatten groups ++ rest ∧
      List.Forall₂ Laid groups (output.appended.map LogRecord.data) ∧
      List.Forall₂ (LogBackEnd.Image kSmallBuffer) rest lines ∧
      FifoTransfer.Carries (s.backEnd.logging.unwritten ++ s.backEnd.logging.frontEnd) lines ∧
      s.backEnd.logging.lines.flatten = s.backEnd.logging.written.flatten ++ lines.flatten := by
  have back := held.backEnd
  obtain ⟨groups, rest, lines, written, later⟩ := LogBackEnd.lines_grouped back
  obtain ⟨-, images⟩ := (LogBackEnd.recorded back).session output started
  have records := held.lines
  rw [lines] at records
  obtain ⟨cut, left, joined, each, unwritten⟩ := cut_as records
  have room : ∀ c ∈ groups.map List.flatten, c.length < kLargeBuffer := fun c mem => by
    refine AsyncLogging.chunks_room (by decide) (LogBackEnd.logging_reachable back) c ?_
    rw [written] at mem
    exact List.mem_append_left _ (List.mem_append_left _ mem)
  rw [← written] at images
  refine ⟨cut, left, rest, joined, laid_all each images room, unwritten, later, ?_⟩
  rw [lines, ← written, List.flatten_append, List.flatten_flatten]

/-- The records in the order of their `append`s, cut into those of the arrays written and the
rest: every array has at most 999 records, the text of each at the start of its cell; the streams
that were opened received the arrays one after the other; and the rest is in buffers that are not
written yet. No statement ends the process. -/
theorem records_in_files
    (reached : (logProgram timebuf getErrnoMsg basename rollSize).Reachable Orderly s)
    {output : LogSession} (started : s.backEnd.output = some output) :
    s.aborted = false ∧
    (∃ groups rest lines, s.records = List.flatten groups ++ rest ∧
      List.Forall₂ Laid groups (output.appended.map LogRecord.data) ∧
      List.Forall₂ (LogBackEnd.Image kSmallBuffer) rest lines ∧
      FifoTransfer.Carries (s.backEnd.logging.unwritten ++ s.backEnd.logging.frontEnd) lines) ∧
    output.Stored ∧
    ∀ f ∈ output.log.files, f.text.length = f.received.length * kLargeBuffer := by
  have held := logged reached
  obtain ⟨groups, rest, lines, joined, laid, unwritten, later, -⟩ := held.laid started
  exact ⟨held.alive, ⟨groups, rest, lines, joined, laid, unwritten, later⟩,
    LogBackEnd.arrays_in_files held.backEnd started⟩

theorem log_appends {statement : LogStatement} {fuel : ℕ} {outcome : Outcome}
    {memory : AsyncLogging.Memory kLargeBuffer} {l : AsyncLogging kLargeBuffer}
    (alive : s.aborted = false) (passes : statement.kind.passes s.g_logLevel = true)
    (out : s.g_output = .asyncLog) (set_ : s.g_asyncLog = true)
    (made : statement.kind.statement statement.surroundings fuel statement.file statement.line
      statement.func statement.values = some outcome)
    (appended : s.backEnd.logging.append outcome.stream.buffer_.handedOut memory = some l) :
    (logProgram timebuf getErrnoMsg basename rollSize).next s (.log statement fuel memory) =
      some { s with
        backEnd := { s.backEnd with logging := l }
        records := s.records ++ [outcome.stream.buffer_.content] } := by
  simp [logProgram, next, log, alive, passes, made, statement_effects made, performAll, perform,
    out, asyncLog, set_, LogBackEnd.next, AsyncLogging.next, appended]

def Backs (s : LogProgram) : Action → Prop
  | .back a => LogBackEnd.Writing s.backEnd a
  | _ => False

theorem Backs.orderly {a : Action} (h : Backs s a) : Orderly s a := by
  cases a with
  | back a => exact LogBackEnd.Writing.orderly h
  | _ => exact h.elim

theorem back_path {b : LogBackEnd kLargeBuffer} (alive : s.aborted = false)
    (path : (LogBackEnd.logBackEnd timebuf getErrnoMsg basename rollSize kLargeBuffer).Path
      LogBackEnd.Writing s.backEnd b) :
    (logProgram timebuf getErrnoMsg basename rollSize).Path Backs s
      { s with backEnd := b } := by
  induction path with
  | refl => exact .refl s
  | @tail u v _ taken ih =>
    obtain ⟨a, goes, hn⟩ := taken
    have own : appends a = false := by
      cases a with
      | front a => cases a <;> first | rfl | exact goes.elim
      | start m₁ m₂ now disk => rfl
      | write now accepts fuel => rfl
    refine ih.tail (a := .back a) goes ?_
    have hn : LogBackEnd.next timebuf getErrnoMsg basename rollSize u a = some v := hn
    simp [logProgram, next, alive, own, hn]

/-- No record waits for `stop`: as long as the log runs, the back end by itself brings every record
appended so far into the files. -/
theorem records_get_written
    (reached : (logProgram timebuf getErrnoMsg basename rollSize).Reachable Orderly s)
    (running : s.backEnd.logging.running_ = true) :
    ∃ u output groups, (logProgram timebuf getErrnoMsg basename rollSize).Path Backs s u ∧
      u.backEnd.output = some output ∧ s.records = List.flatten groups ∧
      List.Forall₂ Laid groups (output.appended.map LogRecord.data) ∧ output.Stored := by
  have held := logged reached
  obtain ⟨b, run, head, same, written⟩ := LogBackEnd.all_written held.backEnd running
  have path := back_path held.alive run
  have ended := logged (reached.path (path.mono fun _ _ backs => backs.orderly))
  obtain ⟨output, some_⟩ := LogBackEnd.session_opened ended.backEnd (by simp [head])
  obtain ⟨groups, rest, lines, joined, laid, unwritten, -, all⟩ := ended.laid some_
  have nothing : lines.flatten = [] := by
    rw [same, written] at all
    exact List.self_eq_append_right.mp all
  have none_ : rest = [] := by
    have length := flatten_length unwritten
    rw [nothing, List.length_nil] at length
    exact List.length_eq_zero_iff.mp ((Nat.mul_eq_zero.mp length.symm).resolve_right (by decide))
  rw [none_, List.append_nil] at joined
  exact ⟨_, output, groups, path, some_, joined, laid,
    (LogBackEnd.arrays_in_files ended.backEnd some_).1⟩

end Files

def sample : LogProgram :=
  { construct AsyncLogging.zeros AsyncLogging.zeros with
    g_output := .asyncLog
    g_asyncLog := true
    backEnd := ⟨(AsyncLogging.construct AsyncLogging.zeros AsyncLogging.zeros).start
      AsyncLogging.zeros AsyncLogging.zeros,
      some (LogBackEnd.construct LogSession.sampleTime "log" 9 86399 fun _ => none)⟩ }

abbrev sampleProgram : System LogProgram Action :=
  logProgram LogSession.sampleTime (fun _ => "Operation not permitted") "log" 9

theorem sample_reached : sampleProgram.Reachable Orderly sample := by
  have first : sampleProgram.init (construct AsyncLogging.zeros AsyncLogging.zeros) :=
    ⟨_, _, rfl⟩
  have found : sampleProgram.next (construct AsyncLogging.zeros AsyncLogging.zeros)
      (.setAsyncLog true) =
      some { construct AsyncLogging.zeros AsyncLogging.zeros with g_asyncLog := true } := rfl
  have redirected : sampleProgram.next
      { construct AsyncLogging.zeros AsyncLogging.zeros with g_asyncLog := true }
      (.setOutput .asyncLog) = some { construct AsyncLogging.zeros AsyncLogging.zeros with
        g_output := .asyncLog
        g_asyncLog := true } := rfl
  have started : sampleProgram.next { construct AsyncLogging.zeros AsyncLogging.zeros with
        g_output := .asyncLog
        g_asyncLog := true }
      (.back (.start AsyncLogging.zeros AsyncLogging.zeros 86399 fun _ => none)) =
      some sample := rfl
  exact (System.Reachable.initial first).path
    (((System.Path.single trivial found).tail trivial redirected).tail (a := .back _)
      (by change (0 : ℤ) < 86399; decide) started)

def sampleText : List Byte :=
  layoutText Logger.sample .INFO .LOG_FATAL [109, 97, 105, 110] [97, 46, 99, 99] 7
    [LogStream.plain [33]]

theorem fatal_logged : ∃ s : LogProgram, sampleProgram.Reachable Orderly s ∧
    s.records = [sampleText] ∧ s.backEnd.logging.running_ = true := by
  obtain ⟨enough, spec⟩ := statement_room .LOG_FATAL samplePath sampleName
    (by decide : IntegerType.int.Holds 7)
    (.cons .char .nil : List.Forall₂ (LogStream.Renders Logger.sample.format Logger.sample.memory)
      [.char 33] [LogStream.plain [33]]) (by decide)
  obtain ⟨outcome, made, content, -⟩ := spec enough (Nat.le_refl enough)
  obtain ⟨l, appended⟩ : ∃ l, sample.backEnd.logging.append outcome.stream.buffer_.handedOut
      AsyncLogging.zeros = some l := ⟨_, rfl⟩
  have on : l.running_ = true := by
    obtain ⟨current, -, rfl⟩ := Option.map_eq_some_iff.mp appended
    split_ifs <;> rfl
  have logs : sampleProgram.next sample
      (.log ⟨.LOG_FATAL, Logger.sample, 1, 7, 10, [.char 33]⟩ enough AsyncLogging.zeros) =
      some { sample with
        backEnd := { sample.backEnd with logging := l }
        records := [outcome.stream.buffer_.content] } :=
    log_appends rfl rfl rfl rfl made appended
  exact ⟨_, sample_reached.path (.single (a := .log _ _ _) trivial logs),
    congrArg (fun text => [text]) content, on⟩

theorem records_in_files_fatal : ∃ s : LogProgram, ∃ output,
    sampleProgram.Reachable Orderly s ∧ s.backEnd.output = some output ∧
    s.records = [sampleText] ∧ s.backEnd.logging.written.flatten.length = kSmallBuffer ∧
    s.aborted = false ∧
    (∃ groups rest lines, s.records = List.flatten groups ++ rest ∧
      List.Forall₂ Laid groups (output.appended.map LogRecord.data) ∧
      List.Forall₂ (LogBackEnd.Image kSmallBuffer) rest lines ∧
      FifoTransfer.Carries (s.backEnd.logging.unwritten ++ s.backEnd.logging.frontEnd) lines) ∧
    output.Stored ∧
    ∀ f ∈ output.log.files, f.text.length = f.received.length * kLargeBuffer := by
  obtain ⟨s, reached, one, running⟩ := fatal_logged
  have held := logged reached
  obtain ⟨b, run, head, -, written⟩ := LogBackEnd.all_written held.backEnd running
  have ended := reached.path ((back_path held.alive run).mono fun _ _ backs => backs.orderly)
  obtain ⟨output, some_⟩ := LogBackEnd.session_opened (logged ended).backEnd (by simp [head])
  refine ⟨_, output, ended, some_, one, ?_, records_in_files ended some_⟩
  rw [written, flatten_length held.lines, one]
  exact Nat.one_mul _

theorem records_get_written_fatal : ∃ s : LogProgram, sampleProgram.Reachable Orderly s ∧
    s.records = [sampleText] ∧
    ∃ u output groups, sampleProgram.Path Backs s u ∧ u.backEnd.output = some output ∧
      s.records = List.flatten groups ∧
      List.Forall₂ Laid groups (output.appended.map LogRecord.data) ∧ output.Stored := by
  obtain ⟨s, reached, one, running⟩ := fatal_logged
  exact ⟨s, reached, one, records_get_written reached running⟩

end LogProgram

end TinyNetwork

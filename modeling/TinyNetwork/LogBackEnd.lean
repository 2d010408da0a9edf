import TinyNetwork.AsyncLogging
import TinyNetwork.LogFile

/-! `threadFunc` of `logger/AsyncLogging.cc` with the `LogFile` it writes to: what the buffers
carry and what the files hold, put together. The call is `output.append(buffer->data(),
buffer->length())`, and `length()` is the size of the array, so a record is the whole array of
its buffer: the lines, and behind them whatever bytes the buffer holds. -/
namespace TinyNetwork
open Transition MachineWord FifoTransfer

structure LogBackEnd (SIZE : ℕ) where
  logging : AsyncLogging SIZE
  output : Option LogSession

namespace LogBackEnd

variable {SIZE : ℕ}

inductive Action (SIZE : ℕ) where
  | front (a : AsyncLogging.Action SIZE)
  | start (m₁ m₂ : AsyncLogging.Memory SIZE) (now : ℤ) (disk : String → Option (List Byte))
  | write (now : ℤ) (accepts : ℕ → ℕ) (fuel : ℕ)

def toWrite (l : AsyncLogging SIZE) : Option (FixedBuffer SIZE) :=
  match l.backEnd with
  | .writing k => l.buffersToWrite[k]?.bind id
  | _ => none

variable (timebuf getErrnoMsg : ℤ → String) (basename : String) (rollSize : ℤ)

/-- `LogFile output(basename_, rollSize_, false)`, with the default `checkEveryN`, over the files
that are there. -/
def construct (now : ℤ) (disk : String → Option (List Byte)) : LogSession :=
  ⟨LogFile.construct timebuf basename rollSize 0 1024 now disk, now, [], disk⟩

def next (s : LogBackEnd SIZE) : Action SIZE → Option (LogBackEnd SIZE)
  | .front a =>
    match a with
    | .start _ _ => none
    | .write => none
    | a => (AsyncLogging.next s.logging a).map fun logging => { s with logging := logging }
  | .start m₁ m₂ now disk =>
    (AsyncLogging.next s.logging (.start m₁ m₂)).map fun logging =>
      ⟨logging, some (construct timebuf basename rollSize now disk)⟩
  | .write now accepts fuel =>
    (toWrite s.logging).bind fun buffer =>
    s.output.bind fun output =>
    ((LogSession.system timebuf getErrnoMsg).next output
      ⟨⟨now, buffer.handedOut⟩, accepts, fuel⟩).bind fun output =>
    (AsyncLogging.next s.logging .write).map fun logging => ⟨logging, some output⟩

def logBackEnd (SIZE : ℕ) : System (LogBackEnd SIZE) (Action SIZE) where
  init s := (AsyncLogging.logging SIZE).init s.logging ∧ s.output = none
  next := next timebuf getErrnoMsg basename rollSize

/-- Lines an empty buffer has room for, a clock that shows a time and does not go back, and
writes that succeed. Nothing is asked of the names of the files. -/
def Orderly (s : LogBackEnd SIZE) : Action SIZE → Prop
  | .front a => AsyncLogging.Short s.logging a
  | .start _ _ now _ => 0 < now
  | .write now accepts fuel =>
    (∀ output ∈ s.output, output.clock ≤ now) ∧ accepts 0 = SIZE ∧ 2 ≤ fuel

instance (s : LogBackEnd SIZE) (a : Action SIZE) : Decidable (Orderly s a) := by
  cases a <;> unfold Orderly <;> infer_instance

section Steps
variable {timebuf getErrnoMsg : ℤ → String} {basename : String} {rollSize : ℤ}
  {s t : LogBackEnd SIZE} {l l' : AsyncLogging SIZE}

theorem next_logging {a : Action SIZE}
    (hn : next timebuf getErrnoMsg basename rollSize s a = some t) (orderly : Orderly s a) :
    ∃ b, AsyncLogging.Short s.logging b ∧ AsyncLogging.next s.logging b = some t.logging := by
  cases a with
  | front a =>
    simp only [next] at hn
    split at hn
    · cases hn
    · cases hn
    · obtain ⟨l, hl, rfl⟩ := Option.map_eq_some_iff.mp hn
      exact ⟨a, orderly, hl⟩
  | start m₁ m₂ now disk =>
    obtain ⟨l, hl, rfl⟩ := Option.map_eq_some_iff.mp hn
    exact ⟨.start m₁ m₂, trivial, hl⟩
  | write now accepts fuel =>
    obtain ⟨buffer, -, hn⟩ := Option.bind_eq_some_iff.mp hn
    obtain ⟨output, -, hn⟩ := Option.bind_eq_some_iff.mp hn
    obtain ⟨output', -, hn⟩ := Option.bind_eq_some_iff.mp hn
    obtain ⟨l, hl, rfl⟩ := Option.map_eq_some_iff.mp hn
    exact ⟨.write, trivial, hl⟩

theorem logging_reachable
    (h : (logBackEnd timebuf getErrnoMsg basename rollSize SIZE).Reachable Orderly s) :
    (AsyncLogging.logging SIZE).Reachable AsyncLogging.Short s.logging :=
  h.simulate LogBackEnd.logging
    (fun _ (first : (logBackEnd timebuf getErrnoMsg basename rollSize SIZE).init _) => first.1)
    fun _ _ _ _ orderly hn => by
      obtain ⟨b, short, step⟩ := next_logging hn orderly
      exact .single short step

theorem next_front {a : AsyncLogging.Action SIZE} (hn : AsyncLogging.next l a = some l')
    (silent : a ≠ .write) :
    l'.written = l.written ∧ (l'.backEnd = .notStarted → l.backEnd = .notStarted) := by
  cases a with
  | start m₁ m₂ =>
    obtain ⟨idle, rfl⟩ := guard_met hn
    exact ⟨rfl, fun _ => idle⟩
  | append logline memory =>
    obtain ⟨current, -, rfl⟩ := Option.map_eq_some_iff.mp hn
    split_ifs <;> exact ⟨rfl, id⟩
  | test =>
    obtain ⟨-, rfl⟩ := guard_met hn
    exact ⟨rfl, fun none_ => by split_ifs at none_⟩
  | lock =>
    obtain ⟨-, rfl⟩ := guard_met hn
    split_ifs
    · exact ⟨rfl, fun none_ => nomatch none_⟩
    · exact ⟨rfl, fun none_ => nomatch none_⟩
  | wake =>
    obtain ⟨-, rfl⟩ := guard_met hn
    exact ⟨rfl, fun none_ => nomatch none_⟩
  | write => exact absurd rfl silent
  | recycle =>
    obtain ⟨-, hn⟩ := Option.ite_none_right_eq_some.mp hn
    obtain ⟨new₁, new₂, kept, rest, -, -, rfl⟩ := AsyncLogging.recycle_shape hn
    exact ⟨rfl, fun none_ => nomatch none_⟩
  | stop =>
    obtain ⟨-, rfl⟩ := guard_met hn
    exact ⟨rfl, id⟩

def Image (SIZE : ℕ) (chunk data : List Byte) : Prop := data.length = SIZE ∧ chunk <+: data

theorem image_handedOut (b : FixedBuffer SIZE) : Image SIZE b.content b.handedOut := by
  rw [FixedBuffer.handedOut_eq]
  exact ⟨b.sized, List.take_prefix _ _⟩

structure Recorded (timebuf getErrnoMsg : ℤ → String) (s : LogBackEnd SIZE) : Prop where
  unstarted : s.logging.backEnd = .notStarted → s.output = none
  idle : s.output = none → s.logging.written = []
  session : ∀ output ∈ s.output,
    (LogSession.system timebuf getErrnoMsg).Reachable LogSession.Timely output ∧
      List.Forall₂ (Image SIZE) s.logging.written (output.appended.map LogRecord.data)

theorem Recorded.front {a : AsyncLogging.Action SIZE} (h : Recorded timebuf getErrnoMsg s)
    (silent : a ≠ .write) (hn : AsyncLogging.next s.logging a = some l) :
    Recorded timebuf getErrnoMsg { s with logging := l } := by
  obtain ⟨written, back⟩ := next_front hn silent
  exact ⟨fun none_ => h.unstarted (back none_), fun none_ => written.trans (h.idle none_),
    fun output mem => written ▸ h.session output mem⟩

theorem Recorded.write {output output' : LogSession} {buffer : FixedBuffer SIZE} {now : ℤ}
    {accepts : ℕ → ℕ} {fuel : ℕ} (h : Recorded timebuf getErrnoMsg s)
    (picked : toWrite s.logging = some buffer) (some_ : s.output = some output)
    (timely : LogSession.Timely output ⟨⟨now, buffer.handedOut⟩, accepts, fuel⟩)
    (stepped : (LogSession.system timebuf getErrnoMsg).next output
      ⟨⟨now, buffer.handedOut⟩, accepts, fuel⟩ = some output')
    (hn : AsyncLogging.next s.logging .write = some l) :
    Recorded timebuf getErrnoMsg ⟨l, some output'⟩ := by
  have moved : l.written = s.logging.written ++ [buffer.content] ∧ l.backEnd ≠ .notStarted := by
    simp only [AsyncLogging.next] at hn
    unfold toWrite at picked
    split at hn
    · rename_i k at_
      obtain ⟨found, slot, rfl⟩ := AsyncLogging.write_shape hn
      rw [at_] at picked
      simp only [slot, Option.bind_some, id, Option.some.injEq] at picked
      exact ⟨picked ▸ rfl, by simp⟩
    · cases hn
  obtain ⟨reached, images⟩ := h.session output some_
  refine ⟨fun none_ => absurd none_ moved.2, fun none_ => ?_, fun o mem => ?_⟩
  · cases none_
  obtain rfl : output' = o := Option.some.inj mem
  refine ⟨reached.path (.single timely stepped), ?_⟩
  have appended : output'.appended = output.appended ++ [⟨now, buffer.handedOut⟩] := by
    obtain ⟨log, -, rfl⟩ := Option.map_eq_some_iff.mp stepped
    rfl
  rw [moved.1, appended, List.map_append]
  exact List.rel_append images (.cons (image_handedOut buffer) .nil)

theorem Recorded.next {a : Action SIZE} (h : Recorded timebuf getErrnoMsg s)
    (orderly : Orderly s a)
    (hn : next timebuf getErrnoMsg basename rollSize s a = some t) :
    Recorded timebuf getErrnoMsg t := by
  cases a with
  | front a =>
    simp only [LogBackEnd.next] at hn
    split at hn
    · cases hn
    · cases hn
    · rename_i silent
      obtain ⟨l, hl, rfl⟩ := Option.map_eq_some_iff.mp hn
      exact h.front silent hl
  | start m₁ m₂ now disk =>
    obtain ⟨l, hl, rfl⟩ := Option.map_eq_some_iff.mp hn
    obtain ⟨idle, rfl⟩ := guard_met hl
    refine ⟨fun none_ => (nomatch none_), fun none_ => (nomatch none_), fun o mem => ?_⟩
    obtain rfl : construct timebuf basename rollSize now disk = o := Option.some.inj mem
    have first : (LogSession.system timebuf getErrnoMsg).init
        (construct timebuf basename rollSize now disk) :=
      ⟨basename, rollSize, 0, 1024, now, disk, orderly, by decide, rfl⟩
    refine ⟨.initial first, ?_⟩
    have none_ : s.logging.written = [] := h.idle (h.unstarted idle)
    rw [show (s.logging.start m₁ m₂).written = s.logging.written from rfl, none_]
    exact .nil
  | write now accepts fuel =>
    obtain ⟨buffer, picked, hn⟩ := Option.bind_eq_some_iff.mp hn
    obtain ⟨output, some_, hn⟩ := Option.bind_eq_some_iff.mp hn
    obtain ⟨output', stepped, hn⟩ := Option.bind_eq_some_iff.mp hn
    obtain ⟨l, hl, rfl⟩ := Option.map_eq_some_iff.mp hn
    obtain ⟨later, full, turns⟩ := orderly
    have whole : accepts 0 = buffer.handedOut.length := full.trans (image_handedOut buffer).1.symm
    exact h.write picked some_ ⟨later output some_, whole, turns⟩ stepped hl

theorem recorded
    (h : (logBackEnd timebuf getErrnoMsg basename rollSize SIZE).Reachable Orderly s) :
    Recorded timebuf getErrnoMsg s := by
  refine h.invariant (P := Recorded timebuf getErrnoMsg) (fun s first => ?_)
    fun s a t held orderly hn => held.next orderly hn
  obtain ⟨⟨m₁, m₂, made⟩, none_⟩ := first
  refine ⟨fun _ => none_, fun _ => by rw [made]; rfl, fun output mem => ?_⟩
  rw [none_] at mem
  cases mem

theorem lines_carried
    (h : (logBackEnd timebuf getErrnoMsg basename rollSize SIZE).Reachable Orderly s) :
    Carries s.logging.chunks s.logging.lines := by
  have reached := logging_reachable h
  have all : s.logging.stored = s.logging.lines := by
    refine List.filter_eq_self.mpr fun line mem => ?_
    simpa using AsyncLogging.lines_short reached line mem
  exact all ▸ AsyncLogging.logging_conserved reached

theorem lines_grouped
    (h : (logBackEnd timebuf getErrnoMsg basename rollSize SIZE).Reachable Orderly s) :
    ∃ groups rest, s.logging.lines = List.flatten groups ++ rest ∧
      groups.map List.flatten = s.logging.written ∧
      Carries (s.logging.unwritten ++ s.logging.frontEnd) rest := by
  obtain ⟨groups, lines, chunks⟩ := lines_carried h
  rw [AsyncLogging.chunks, List.append_assoc] at chunks
  obtain ⟨front, rear, rfl, done, later⟩ := List.map_eq_append_iff.mp chunks
  refine ⟨front, rear.flatten, ?_, done, rear, rfl, later⟩
  rw [← lines, List.flatten_append]

/-- The streams received the arrays one after the other, each by one of them. -/
theorem arrays_in_files
    (h : (logBackEnd timebuf getErrnoMsg basename rollSize SIZE).Reachable Orderly s)
    {output : LogSession} (started : s.output = some output) :
    output.Stored ∧ ∀ f ∈ output.log.files, f.text.length = f.received.length * SIZE := by
  obtain ⟨reached, images⟩ := (recorded h).session output started
  have stored := (LogSession.rolling_valid reached).stored
  refine ⟨stored, fun f mem => ?_⟩
  have sized : ∀ r ∈ f.received, r.data.length = SIZE := fun r hr => by
    have mem : r.data ∈ output.appended.map LogRecord.data :=
      List.mem_map_of_mem (stored.order ▸ List.mem_flatMap.mpr ⟨f, mem, hr⟩)
    obtain ⟨i, inside, at_⟩ := List.mem_iff_getElem.mp mem
    have image := List.Forall₂.get images (images.length_eq ▸ inside) inside
    rw [List.get_eq_getElem, List.get_eq_getElem, at_] at image
    exact image.1
  rw [RolledFile.text, List.length_flatMap, List.map_congr_left sized, List.map_const',
    List.sum_replicate_nat]

/-- The lines in the order of their `append`s, cut into those of the records and the rest: every
record is an array that begins with its lines, whole and one after the other; the streams that
were opened received the records one after the other, each by one of them, and the files hold
what the streams of their names received; and the rest of the lines is in buffers that are not
written yet. -/
theorem lines_in_files
    (h : (logBackEnd timebuf getErrnoMsg basename rollSize SIZE).Reachable Orderly s)
    {output : LogSession} (started : s.output = some output) :
    (∃ groups rest, s.logging.lines = List.flatten groups ++ rest ∧
      List.Forall₂ (Image SIZE) (groups.map List.flatten)
        (output.appended.map LogRecord.data) ∧
      Carries (s.logging.unwritten ++ s.logging.frontEnd) rest) ∧
    output.Stored ∧ ∀ f ∈ output.log.files, f.text.length = f.received.length * SIZE := by
  obtain ⟨-, images⟩ := (recorded h).session output started
  obtain ⟨groups, rest, lines, done, later⟩ := lines_grouped h
  exact ⟨⟨groups, rest, lines, done ▸ images, later⟩, arrays_in_files h started⟩

end Steps

def small : LogBackEnd 4 := ⟨AsyncLogging.construct AsyncLogging.cells AsyncLogging.cells, none⟩

abbrev smallProgram : System (LogBackEnd 4) (Action 4) :=
  logBackEnd LogSession.sampleTime (fun _ => "Operation not permitted") "log" 9 4

theorem small_initial : smallProgram.init small := ⟨AsyncLogging.construct_initial _ _, rfl⟩

theorem lines_in_files_small : ∃ s : LogBackEnd 4, ∃ output,
    smallProgram.Reachable Orderly s ∧ s.output = some output ∧
    s.logging.lines = [[1, 2, 3], [4, 5], [6]] ∧
    output.appended.map LogRecord.data = [[1, 2, 3, 0]] ∧
    (∃ groups rest, s.logging.lines = List.flatten groups ++ rest ∧
      List.Forall₂ (Image 4) (groups.map List.flatten) (output.appended.map LogRecord.data) ∧
      Carries (s.logging.unwritten ++ s.logging.frontEnd) rest) ∧
    output.Stored ∧ ∀ f ∈ output.log.files, f.text.length = f.received.length * 4 := by
  have run : (smallProgram.execute Orderly small
      [.start AsyncLogging.cells AsyncLogging.cells 86399 fun _ => none,
        .front (.append [1, 2, 3] AsyncLogging.cells), .front (.append [4, 5] AsyncLogging.cells),
        .front .test, .front .lock, .front (.append [6] AsyncLogging.cells),
        .write 86400 (fun _ => 4) 2]).map
      (fun s => (s.logging.lines, s.output.map fun o => o.appended.map LogRecord.data)) =
      some ([[1, 2, 3], [4, 5], [6]], some [[1, 2, 3, 0]]) := by decide +kernel
  obtain ⟨s, reached, ends⟩ := System.Reachable.of_replay small_initial run
  simp only [Prod.mk.injEq] at ends
  obtain ⟨output, some_, records⟩ := Option.map_eq_some_iff.mp ends.2
  exact ⟨s, output, reached, some_, ends.1, records, lines_in_files reached some_⟩

section Progress
variable {timebuf getErrnoMsg : ℤ → String} {basename : String} {rollSize : ℤ}
  {s : LogBackEnd SIZE} {l l' : AsyncLogging SIZE} {k : ℕ}

def Writing (s : LogBackEnd SIZE) : Action SIZE → Prop
  | .front .test => True
  | .front .lock => True
  | .front .wake => True
  | .front .recycle => True
  | .write now accepts fuel => Orderly s (.write now accepts fuel)
  | _ => False

theorem Writing.orderly {a : Action SIZE} (h : Writing s a) : Orderly s a := by
  cases a with
  | front a => cases a <;> trivial
  | start m₁ m₂ now disk => exact h.elim
  | write now accepts fuel => exact h

theorem unstarted_stays {a : AsyncLogging.Action SIZE} (hn : AsyncLogging.next l a = some l')
    (idle : l.backEnd = .notStarted) (other : ∀ m₁ m₂, a ≠ .start m₁ m₂) :
    l'.backEnd = .notStarted := by
  cases a with
  | start m₁ m₂ => exact absurd rfl (other m₁ m₂)
  | append logline memory =>
    obtain ⟨current, -, rfl⟩ := Option.map_eq_some_iff.mp hn
    split_ifs <;> exact idle
  | stop =>
    obtain ⟨-, rfl⟩ := guard_met hn
    exact idle
  | test | lock | wake | write | recycle => simp [AsyncLogging.next, idle] at hn

theorem session_opened
    (h : (logBackEnd timebuf getErrnoMsg basename rollSize SIZE).Reachable Orderly s) :
    s.logging.backEnd ≠ .notStarted → ∃ output, s.output = some output := by
  refine h.invariant (P := fun s => s.logging.backEnd ≠ .notStarted → ∃ output,
    s.output = some output) (fun s first => ?_) fun s a t held _ hn => ?_
  · obtain ⟨⟨m₁, m₂, made⟩, -⟩ := first
    exact fun begun => absurd (by rw [made]; rfl) begun
  · cases a with
    | front a =>
      simp only [logBackEnd, next] at hn
      split at hn
      · cases hn
      · cases hn
      · rename_i other _
        obtain ⟨l, hl, rfl⟩ := Option.map_eq_some_iff.mp hn
        exact fun begun => held fun idle => begun (unstarted_stays hl idle other)
    | start m₁ m₂ now disk =>
      obtain ⟨l, -, rfl⟩ := Option.map_eq_some_iff.mp hn
      exact fun _ => ⟨_, rfl⟩
    | write now accepts fuel =>
      obtain ⟨buffer, -, hn⟩ := Option.bind_eq_some_iff.mp hn
      obtain ⟨output, -, hn⟩ := Option.bind_eq_some_iff.mp hn
      obtain ⟨output', -, hn⟩ := Option.bind_eq_some_iff.mp hn
      obtain ⟨l, -, rfl⟩ := Option.map_eq_some_iff.mp hn
      exact fun _ => ⟨output', rfl⟩

theorem front_path {a : AsyncLogging.Action SIZE} (goes : Writing s (.front a))
    (hn : AsyncLogging.next s.logging a = some l) :
    (logBackEnd timebuf getErrnoMsg basename rollSize SIZE).Path Writing s
      { s with logging := l } := by
  refine System.Path.single goes ?_
  cases a with
  | start m₁ m₂ => exact goes.elim
  | write => exact goes.elim
  | _ => simp only [logBackEnd, next, hn, Option.map_some]

theorem write_path
    (h : (logBackEnd timebuf getErrnoMsg basename rollSize SIZE).Reachable Orderly s)
    (at_ : s.logging.backEnd = .writing k) (inside : k < s.logging.buffersToWrite.length) :
    ∃ u b, (logBackEnd timebuf getErrnoMsg basename rollSize SIZE).Path Writing s u ∧
      AsyncLogging.bytes s.logging.buffersToWrite[k] = b ∧ u.logging =
        { s.logging with written := s.logging.written ++ [b], backEnd := .writing (k + 1) } := by
  obtain ⟨b, content, written⟩ :=
    AsyncLogging.write_enabled (AsyncLogging.logging_valid (logging_reachable h)) inside
  obtain ⟨buffer, slot, -⟩ := AsyncLogging.write_shape written
  obtain ⟨output, some_⟩ := session_opened h (by simp [at_])
  obtain ⟨reached, -⟩ := (recorded h).session output some_
  obtain ⟨f, bounded⟩ := (LogSession.rolling_valid reached).bounded
  have whole := (image_handedOut buffer).1
  obtain ⟨g, -, appended⟩ := LogSession.append_returns timebuf getErrnoMsg bounded
    (c := ⟨⟨output.clock, buffer.handedOut⟩, fun _ => SIZE, 2⟩) whole.symm (Nat.le_refl 2)
  have picked : toWrite s.logging = some buffer := by
    simp only [toWrite, at_, slot, Option.bind_some, id]
  have turn : AsyncLogging.next s.logging .write =
      some { s.logging with
        written := s.logging.written ++ [b]
        backEnd := .writing (k + 1) } := by
    simp only [AsyncLogging.next, at_, written]
  obtain ⟨output', returns⟩ := Option.isSome_iff_exists.mp
    (show ((LogSession.system timebuf getErrnoMsg).next output
      ⟨⟨output.clock, buffer.handedOut⟩, fun _ => SIZE, 2⟩).isSome by
      simp [LogSession.system, appended])
  have stepped : (logBackEnd timebuf getErrnoMsg basename rollSize SIZE).next s
      (.write output.clock (fun _ => SIZE) 2) = some ⟨{ s.logging with
        written := s.logging.written ++ [b]
        backEnd := .writing (k + 1) }, some output'⟩ := by
    simp only [logBackEnd, next, picked, some_, returns, turn, Option.bind_some, Option.map_some]
  refine ⟨_, b, System.Path.single ?_ stepped, content, rfl⟩
  exact ⟨fun o mem => (Option.some.inj (some_.symm.trans mem)) ▸ Int.le_refl _, rfl,
    Nat.le_refl 2⟩

theorem writing_ends {n : ℕ}
    (h : (logBackEnd timebuf getErrnoMsg basename rollSize SIZE).Reachable Orderly s)
    (at_ : s.logging.backEnd = .writing k) (left : s.logging.buffersToWrite.length = k + n) :
    ∃ u, (logBackEnd timebuf getErrnoMsg basename rollSize SIZE).Path Writing s u ∧
      u.logging.backEnd = .head ∧ u.logging.running_ = s.logging.running_ ∧
      u.logging.lines = s.logging.lines ∧
      u.logging.written = s.logging.written ++ s.logging.unwritten := by
  induction n generalizing k s with
  | zero =>
    rw [Nat.add_zero] at left
    obtain ⟨l, hl, head, running, written⟩ := AsyncLogging.recycle_enabled
      (AsyncLogging.logging_valid (logging_reachable h)) (left ▸ at_)
    have turn : AsyncLogging.next s.logging .recycle = some l := by
      rw [AsyncLogging.next, if_pos (left ▸ at_), hl]
    refine ⟨_, front_path (a := .recycle) trivial turn, head, running,
      AsyncLogging.recycle_lines hl, ?_⟩
    rw [AsyncLogging.unwritten, at_, AsyncLogging.progress, ← left, List.drop_length,
      List.map_nil, List.append_nil]
    exact written
  | succ n ih =>
    have inside : k < s.logging.buffersToWrite.length := by omega
    obtain ⟨m, b, run, content, same⟩ := write_path h at_ inside
    obtain ⟨u, rest, head, running, lines, written⟩ := ih
      (h.path (run.mono fun _ _ goes => goes.orderly)) (k := k + 1) (by rw [same])
      (by rw [same, left]; omega)
    rw [same] at running lines written
    refine ⟨u, run.trans rest, head, running, lines, ?_⟩
    rw [written]
    simp only [AsyncLogging.unwritten, at_, AsyncLogging.progress,
      List.drop_eq_getElem_cons inside, List.map_cons, content, List.append_assoc,
      List.singleton_append]

theorem taken_over
    (h : (logBackEnd timebuf getErrnoMsg basename rollSize SIZE).Reachable Orderly s)
    (takes : AsyncLogging.TakesFront s.logging ∨
      s.logging.backEnd = .head ∧ s.logging.running_ = true) :
    ∃ u, (logBackEnd timebuf getErrnoMsg basename rollSize SIZE).Path Writing s u ∧
      u.logging = s.logging.swap ∧ AsyncLogging.Ready s.logging := by
  have phase := (AsyncLogging.logging_valid (logging_reachable h)).phase
  have locked : ∀ s : LogBackEnd SIZE, s.logging.backEnd = .lock →
      ∃ u, (logBackEnd timebuf getErrnoMsg basename rollSize SIZE).Path Writing s u ∧
        u.logging = s.logging.swap := by
    intro s at_
    by_cases none_ : s.logging.buffers_ = []
    · have waits : AsyncLogging.next s.logging .lock =
          some { s.logging with backEnd := .waiting } := by
        rw [AsyncLogging.next, if_pos at_, if_pos none_]
      have wakes : AsyncLogging.next { s.logging with backEnd := .waiting } .wake =
          some s.logging.swap := rfl
      exact ⟨_, (front_path (a := .lock) trivial waits).trans (front_path (a := .wake)
        (s := { s with logging := { s.logging with backEnd := .waiting } }) trivial wakes), rfl⟩
    · have swaps : AsyncLogging.next s.logging .lock = some s.logging.swap := by
        rw [AsyncLogging.next, if_pos at_, if_neg none_]
      exact ⟨_, front_path (a := .lock) trivial swaps, rfl⟩
  rcases takes with (at_ | at_) | ⟨at_, running⟩ <;> simp only [AsyncLogging.Phase, at_] at phase
  · obtain ⟨u, run, same⟩ := locked s at_
    exact ⟨u, run, same, phase⟩
  · have wakes : AsyncLogging.next s.logging .wake = some s.logging.swap := by
      rw [AsyncLogging.next, if_pos at_]
    exact ⟨_, front_path (a := .wake) trivial wakes, rfl, phase⟩
  · have tests : AsyncLogging.next s.logging .test =
        some { s.logging with backEnd := .lock } := by
      rw [AsyncLogging.next, if_pos at_, if_pos running]
    obtain ⟨u, run, same⟩ := locked { s with logging := { s.logging with backEnd := .lock } } rfl
    exact ⟨u, (front_path (a := .test) trivial tests).trans run, same, phase⟩

theorem turn_writes
    (h : (logBackEnd timebuf getErrnoMsg basename rollSize SIZE).Reachable Orderly s)
    (takes : AsyncLogging.TakesFront s.logging ∨
      s.logging.backEnd = .head ∧ s.logging.running_ = true) :
    ∃ u, (logBackEnd timebuf getErrnoMsg basename rollSize SIZE).Path Writing s u ∧
      u.logging.backEnd = .head ∧ u.logging.lines = s.logging.lines ∧
      u.logging.written.flatten = s.logging.lines.flatten := by
  obtain ⟨m, run, same, ready⟩ := taken_over h takes
  obtain ⟨u, rest, head, -, lines, written⟩ := writing_ends (k := 0)
    (n := m.logging.buffersToWrite.length) (h.path (run.mono fun _ _ goes => goes.orderly))
    (by rw [same]; rfl) (Nat.zero_add _).symm
  rw [same] at lines written
  refine ⟨u, run.trans rest, head, lines, ?_⟩
  rw [written, AsyncLogging.swap_written ready, (lines_carried h).flatten]

/-- Wherever the back end is in its turn, it gets to the end of one with every line written. -/
theorem all_written
    (h : (logBackEnd timebuf getErrnoMsg basename rollSize SIZE).Reachable Orderly s)
    (running : s.logging.running_ = true) :
    ∃ u, (logBackEnd timebuf getErrnoMsg basename rollSize SIZE).Path Writing s u ∧
      u.logging.backEnd = .head ∧ u.logging.lines = s.logging.lines ∧
      u.logging.written.flatten = s.logging.lines.flatten := by
  have reached := logging_reachable h
  obtain ⟨l, first, path⟩ := reached
  have started := AsyncLogging.logging_started ⟨l, first, path.mono fun _ _ _ => trivial⟩ running
  cases at_ : s.logging.backEnd with
  | notStarted => exact absurd at_ started.1
  | exited => exact absurd at_ started.2
  | head => exact turn_writes h (.inr ⟨at_, running⟩)
  | lock => exact turn_writes h (.inl (.inl at_))
  | waiting => exact turn_writes h (.inl (.inr at_))
  | writing k =>
    have phase := (AsyncLogging.logging_valid (logging_reachable h)).phase
    simp only [AsyncLogging.Phase, at_] at phase
    obtain ⟨m, run, head, on, lines, -⟩ := writing_ends h at_
      (n := s.logging.buffersToWrite.length - k) (by omega)
    obtain ⟨u, rest, back, lines', written⟩ := turn_writes
      (h.path (run.mono fun _ _ goes => goes.orderly)) (.inr ⟨head, on.trans running⟩)
    exact ⟨u, run.trans rest, back, lines'.trans lines, written.trans (by rw [lines])⟩

/-- No line waits for `stop`: as long as the log runs, the back end by itself, woken by nothing but
the time-out of its wait, brings every line appended so far into the files. -/
theorem lines_get_written
    (h : (logBackEnd timebuf getErrnoMsg basename rollSize SIZE).Reachable Orderly s)
    (running : s.logging.running_ = true) :
    ∃ u output chunks,
      (logBackEnd timebuf getErrnoMsg basename rollSize SIZE).Path Writing s u ∧
      u.output = some output ∧ u.logging.lines = s.logging.lines ∧
      chunks.flatten = s.logging.lines.flatten ∧
      List.Forall₂ (Image SIZE) chunks (output.appended.map LogRecord.data) ∧
      output.Stored := by
  obtain ⟨u, run, head, lines, written⟩ := all_written h running
  have reached := h.path (run.mono fun _ _ goes => goes.orderly)
  obtain ⟨output, some_⟩ := session_opened reached (by simp [head])
  obtain ⟨session, images⟩ := (recorded reached).session output some_
  exact ⟨u, output, _, run, some_, lines, written, images,
    (LogSession.rolling_valid session).stored⟩

end Progress

theorem lines_get_written_later : ∃ s : LogBackEnd 4, smallProgram.Reachable Orderly s ∧
    s.logging.lines = [[1, 2, 3], [4, 5], [6]] ∧ s.logging.written = [] ∧
    ∃ u output chunks, smallProgram.Path Writing s u ∧
      u.output = some output ∧ u.logging.lines = s.logging.lines ∧
      chunks.flatten = s.logging.lines.flatten ∧
      List.Forall₂ (Image 4) chunks (output.appended.map LogRecord.data) ∧ output.Stored := by
  have run : (smallProgram.execute Orderly small
      [.start AsyncLogging.cells AsyncLogging.cells 86399 fun _ => none,
        .front (.append [1, 2, 3] AsyncLogging.cells), .front (.append [4, 5] AsyncLogging.cells),
        .front .test, .front .lock, .front (.append [6] AsyncLogging.cells)]).map
      (fun s => (s.logging.lines, s.logging.written, s.logging.running_)) =
      some ([[1, 2, 3], [4, 5], [6]], [], true) := by decide +kernel
  obtain ⟨s, reached, ends⟩ := System.Reachable.of_replay small_initial run
  simp only [Prod.mk.injEq] at ends
  exact ⟨s, reached, ends.1, ends.2.1, lines_get_written reached ends.2.2⟩

end LogBackEnd
end TinyNetwork

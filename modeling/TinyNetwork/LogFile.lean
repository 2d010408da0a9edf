import TinyNetwork.FileUtil
import TinyNetwork.Transition

/-! The rolling log file of `logger/LogFile.cc`. `append` writes to the current file and
then may replace it: on its size at once, on the day only at every `checkEveryN_`-th
record that finds the file small, and never twice in one second. `time(NULL)` answers
`now` throughout one call. The name of a file is made of the local time, and a second of
local time may come again: `fopen` then finds a file of that name and continues it. So the
files are kept by their names, and beside them the streams that were opened, each with the
records it received. -/
namespace TinyNetwork
open MachineWord Transition

structure LogRecord where
  now : ℤ
  data : List Byte

def kRollPerSeconds_ : ℤ := 60 * 60 * 24

def periodOf (now : ℤ) : ℤ := now.tdiv kRollPerSeconds_ * kRollPerSeconds_

/-- A stream opened by `rollFile`: what `fopen` found under the name, `none` when it created the
file, the `startOfPeriod_` it was opened under, and the records it received. -/
structure RolledFile where
  filename : String
  found : Option (List Byte)
  file : FileUtil
  startOfPeriod : ℤ
  received : List LogRecord

def RolledFile.text (f : RolledFile) : List Byte := f.received.flatMap LogRecord.data

def RolledFile.lateRecords (f : RolledFile) : List LogRecord :=
  f.received.filter fun r => f.startOfPeriod < periodOf r.now

/-- `closed` are the streams that `file_` held before, and `disk` are the files by their names, as
they were when `file_` was opened. -/
structure LogFile where
  basename_ : String
  rollSize_ : ℤ
  flushInterval_ : ℤ
  checkEveryN_ : ℤ
  counts_ : ℤ
  startOfPeriod_ : ℤ
  lastRoll_ : ℤ
  lastFlush_ : ℤ
  file_ : Option RolledFile
  closed : List RolledFile
  disk : String → Option (List Byte)

namespace LogFile

def files (l : LogFile) : List RolledFile := l.closed ++ l.file_.toList

def created (l : LogFile) : List String :=
  (l.files.filter fun f => f.found.isNone).map RolledFile.filename

def contents (l : LogFile) : String → Option (List Byte) :=
  match l.file_ with
  | none => l.disk
  | some f => Function.update l.disk f.filename (some f.file.fp_.bytes)

section Code
variable (timebuf : ℤ → String) (getErrnoMsg : ℤ → String)

/-- `timebuf` is the local time of a second in the form `.%Y%m%d-%H%M%S`. -/
def getLogFileName (basename : String) (now : ℤ) : String := basename ++ timebuf now ++ ".log"

def rollFile (l : LogFile) (now : ℤ) : Bool × LogFile :=
  let filename := getLogFileName timebuf l.basename_ now
  let start := periodOf now
  if now > l.lastRoll_ then
    -- both streams append, so it does not matter that the old one is closed after this one opens
    let found := l.contents filename
    (true,
      { l with
        lastRoll_ := now
        lastFlush_ := now
        startOfPeriod_ := start
        file_ := some ⟨filename, found, FileUtil.construct (found.getD []), start, []⟩
        closed := l.files
        disk := l.contents })
  else (false, l)

def unopened (basename : String) (rollSize flushInterval checkEveryN : ℤ)
    (disk : String → Option (List Byte)) : LogFile :=
  ⟨basename, rollSize, flushInterval, checkEveryN, 0, 0, 0, 0, none, [], disk⟩

def construct (basename : String) (rollSize flushInterval checkEveryN now : ℤ)
    (disk : String → Option (List Byte)) : LogFile :=
  (rollFile timebuf (unopened basename rollSize flushInterval checkEveryN disk) now).2

def write (f : RolledFile) (accepts : ℕ → ℕ) (fuel : ℕ) (r : LogRecord) : Option RolledFile :=
  (f.file.append getErrnoMsg accepts fuel r.data).map fun file =>
    { f with file := file, received := f.received ++ [r] }

def check (l : LogFile) (file : RolledFile) (now : ℤ) : LogFile :=
  if file.file.writtenBytes > l.rollSize_ then (l.rollFile timebuf now).2
  else
    let l := { l with counts_ := l.counts_ + 1 }
    if l.counts_ ≥ l.checkEveryN_ then
      let l := { l with counts_ := 0 }
      let thisPeriod := periodOf now
      if thisPeriod ≠ l.startOfPeriod_ then (l.rollFile timebuf now).2
      else if now - l.lastFlush_ > l.flushInterval_ then
        { l with
          lastFlush_ := now
          file_ := some { file with file := file.file.flush } }
      else l
    else l

def appendInLock (l : LogFile) (accepts : ℕ → ℕ) (fuel : ℕ) (r : LogRecord) : Option LogFile :=
  l.file_.bind fun file =>
    (write getErrnoMsg file accepts fuel r).map fun file =>
      check timebuf { l with file_ := some file } file r.now

def append (l : LogFile) (accepts : ℕ → ℕ) (fuel : ℕ) (r : LogRecord) : Option LogFile :=
  l.appendInLock timebuf getErrnoMsg accepts fuel r

end Code

section Steps
variable {timebuf getErrnoMsg : ℤ → String} {l : LogFile} {now : ℤ}

def rolled (timebuf : ℤ → String) (l : LogFile) (now : ℤ) : LogFile :=
  { l with
    lastRoll_ := now
    lastFlush_ := now
    startOfPeriod_ := periodOf now
    file_ := some ⟨getLogFileName timebuf l.basename_ now,
      l.contents (getLogFileName timebuf l.basename_ now),
      FileUtil.construct ((l.contents (getLogFileName timebuf l.basename_ now)).getD []),
      periodOf now, []⟩
    closed := l.files
    disk := l.contents }

variable (timebuf) in
theorem rollFile_later (h : l.lastRoll_ < now) :
    (l.rollFile timebuf now).2 = l.rolled timebuf now := by
  rw [rollFile, if_pos h, rolled]

variable (timebuf) in
theorem rollFile_refused (h : ¬l.lastRoll_ < now) : (l.rollFile timebuf now).2 = l := by
  rw [rollFile, if_neg h]

structure Grown (f g : RolledFile) (r : LogRecord) : Prop where
  filename : g.filename = f.filename
  found : g.found = f.found
  period : g.startOfPeriod = f.startOfPeriod
  received : g.received = f.received ++ [r]
  bytes : g.file.fp_.bytes = f.file.fp_.bytes ++ r.data
  written : g.file.writtenBytes = f.file.writtenBytes + r.data.length

variable (getErrnoMsg) in
theorem write_full {accepts : ℕ → ℕ} {fuel : ℕ} (f : RolledFile) {r : LogRecord}
    (full : accepts 0 = r.data.length) (turns : 2 ≤ fuel) :
    ∃ g, write getErrnoMsg f accepts fuel r = some g ∧ Grown f g r := by
  obtain ⟨more, rfl⟩ := Nat.exists_eq_add_of_le' turns
  obtain ⟨file, appended, bytes, written⟩ :=
    FileUtil.append_full getErrnoMsg more f.file full
  refine ⟨{ f with file := file, received := f.received ++ [r] }, ?_, rfl, rfl, rfl, rfl, bytes,
    written⟩
  rw [write, appended]
  rfl

variable (timebuf now) in
theorem check_cases {file : RolledFile} (hf : l.file_ = some file) :
    (l.rollSize_ < file.file.writtenBytes ∧
      l.check timebuf file now = (l.rollFile timebuf now).2) ∨
    (file.file.writtenBytes ≤ l.rollSize_ ∧
      ((l.counts_ + 1 < l.checkEveryN_ ∧
          l.check timebuf file now = { l with counts_ := l.counts_ + 1 }) ∨
        (l.checkEveryN_ ≤ l.counts_ + 1 ∧ periodOf now ≠ l.startOfPeriod_ ∧
          l.check timebuf file now = ({ l with counts_ := 0 }.rollFile timebuf now).2) ∨
        (periodOf now = l.startOfPeriod_ ∧ ∃ flushed,
          l.check timebuf file now = { l with counts_ := 0, lastFlush_ := flushed }))) := by
  unfold check
  by_cases large : file.file.writtenBytes > l.rollSize_
  · exact .inl ⟨large, if_pos large⟩
  · refine .inr ⟨not_lt.mp large, ?_⟩
    rw [if_neg large]
    by_cases often : l.counts_ + 1 ≥ l.checkEveryN_
    · right
      simp only [if_pos often]
      by_cases other : periodOf now ≠ l.startOfPeriod_
      · exact .inl ⟨often, other, if_pos other⟩
      · refine .inr ⟨not_not.mp other, ?_⟩
        rw [if_neg other]
        split
        · exact ⟨now, by rw [hf]; rfl⟩
        · exact ⟨l.lastFlush_, rfl⟩
    · exact .inl ⟨not_le.mp often, if_neg often⟩

structure Opened (l k : LogFile) (name : String) : Prop where
  files : ∃ fresh : RolledFile, k.files = l.files ++ [fresh] ∧ fresh.filename = name ∧
    fresh.found = l.contents name ∧ fresh.received = [] ∧
    fresh.file.fp_.bytes = (l.contents name).getD []
  contents : k.contents = Function.update l.contents name (some ((l.contents name).getD []))

variable (timebuf) in
theorem rollFile_opened (h : l.lastRoll_ < now) :
    Opened l (l.rollFile timebuf now).2 (getLogFileName timebuf l.basename_ now) := by
  rw [rollFile_later timebuf h]
  exact ⟨⟨_, rfl, rfl, rfl, rfl, rfl⟩, rfl⟩

/-- The checks open a file: for the size of `file`, or for the day at the call that fills the
count. -/
def Rolls (l : LogFile) (file : RolledFile) (now : ℤ) : Prop :=
  l.lastRoll_ < now ∧ (l.rollSize_ < file.file.writtenBytes ∨
    l.checkEveryN_ ≤ l.counts_ + 1 ∧ periodOf now ≠ l.startOfPeriod_)

variable (timebuf) in
theorem check_opened {file : RolledFile} (hf : l.file_ = some file) (rolls : l.Rolls file now) :
    Opened l (l.check timebuf file now) (getLogFileName timebuf l.basename_ now) := by
  obtain ⟨later, reason⟩ := rolls
  rcases check_cases timebuf now hf with
    ⟨-, h⟩ | ⟨small, ⟨below, -⟩ | ⟨-, -, h⟩ | ⟨today, -⟩⟩
  · rw [h]
    exact rollFile_opened timebuf later
  · omega
  · have opened := rollFile_opened timebuf (l := { l with counts_ := 0 }) later
    rw [h]
    exact ⟨opened.files, opened.contents⟩
  · exact (reason.elim (not_lt.mpr small) fun day => day.2 today).elim

variable (timebuf) in
theorem check_stays {file : RolledFile} (hf : l.file_ = some file) (stays : ¬l.Rolls file now) :
    (l.check timebuf file now).files = l.files ∧
      (l.check timebuf file now).contents = l.contents := by
  rcases check_cases timebuf now hf with
    ⟨large, h⟩ | ⟨-, ⟨-, h⟩ | ⟨often, other, h⟩ | ⟨-, flushed, h⟩⟩
  · rw [h, rollFile_refused timebuf fun later => stays ⟨later, .inl large⟩]
    exact ⟨rfl, rfl⟩
  · rw [h]
    exact ⟨rfl, rfl⟩
  · rw [h, rollFile_refused timebuf (l := { l with counts_ := 0 })
      fun later => stays ⟨later, .inr ⟨often, other⟩⟩]
    exact ⟨rfl, rfl⟩
  · rw [h]
    exact ⟨rfl, rfl⟩

end Steps

end LogFile

structure LogSession where
  log : LogFile
  clock : ℤ
  appended : List LogRecord
  before : String → Option (List Byte)

structure LogCall where
  record : LogRecord
  accepts : ℕ → ℕ
  fuel : ℕ

namespace LogSession

def system (timebuf getErrnoMsg : ℤ → String) : System LogSession LogCall where
  init s := ∃ basename rollSize flushInterval checkEveryN now disk, 0 < now ∧ 1 ≤ checkEveryN ∧
    s = ⟨LogFile.construct timebuf basename rollSize flushInterval checkEveryN now disk, now, [],
      disk⟩
  next s c := (s.log.append timebuf getErrnoMsg c.accepts c.fuel c.record).map fun log =>
    ⟨log, c.record.now, s.appended ++ [c.record], s.before⟩

/-- The clock does not go back, the one write accepts everything, and the loop may take
the two turns that are then all it takes. -/
def Timely (s : LogSession) (c : LogCall) : Prop :=
  s.clock ≤ c.record.now ∧ c.accepts 0 = c.record.data.length ∧ 2 ≤ c.fuel

instance (s : LogSession) (c : LogCall) : Decidable (s.Timely c) := instDecidableAnd

def written (s : LogSession) : ℤ := (s.log.file_.map fun f => f.file.writtenBytes).getD 0

def Rolls (s : LogSession) (c : LogCall) : Prop :=
  s.log.lastRoll_ < c.record.now ∧
    (s.log.rollSize_ < s.written + c.record.data.length ∨
      s.log.checkEveryN_ ≤ s.log.counts_ + 1 ∧ periodOf c.record.now ≠ s.log.startOfPeriod_)

instance (s : LogSession) (c : LogCall) : Decidable (s.Rolls c) := instDecidableAnd

/-- A file that the call opens is created: there is none of that name. -/
def Creates (timebuf : ℤ → String) (s : LogSession) (c : LogCall) : Prop :=
  s.Rolls c →
    s.log.contents (LogFile.getLogFileName timebuf s.log.basename_ c.record.now) = none

instance (timebuf : ℤ → String) (s : LogSession) (c : LogCall) :
    Decidable (s.Creates timebuf c) := inferInstanceAs (Decidable (_ → _))

/-! A file made in a period is the current one until some record of a later period is
counted often enough. -/

theorem periodOf_eq {now : ℤ} (h : 0 < now) :
    periodOf now = now / kRollPerSeconds_ * kRollPerSeconds_ := by
  rw [periodOf, Int.tdiv_eq_ediv_of_nonneg h.le]

theorem periodOf_mono {a b : ℤ} (ha : 0 < a) (h : a ≤ b) : periodOf a ≤ periodOf b := by
  rw [periodOf_eq ha, periodOf_eq (ha.trans_le h)]
  unfold kRollPerSeconds_
  omega

theorem later_of_period_lt {a b : ℤ} (hb : 0 < b) (h : periodOf a < periodOf b) : a < b :=
  not_le.mp fun before => absurd (periodOf_mono hb before) (not_le.mpr h)

structure Bounded (l : LogFile) (clock : ℤ) (f : RolledFile) : Prop where
  current : l.file_ = some f
  positive : 0 < l.lastRoll_
  past : l.lastRoll_ ≤ clock
  period : l.startOfPeriod_ = periodOf l.lastRoll_
  same : f.startOfPeriod = l.startOfPeriod_
  counts_nonneg : 0 ≤ l.counts_
  counts_lt : l.counts_ < l.checkEveryN_
  counted : f.lateRecords.length ≤ l.counts_
  overdue : f.lateRecords ≠ [] → f.startOfPeriod < periodOf clock
  closed_late : ∀ g ∈ l.closed, g.lateRecords.length ≤ l.checkEveryN_
  size : f.file.writtenBytes ≤ l.rollSize_ ∨ clock = l.lastRoll_

def Faithful (files : List RolledFile) (appended : List LogRecord) : Prop :=
  files.flatMap RolledFile.received = appended ∧
    ∀ f ∈ files, f.file.fp_.bytes = f.found.getD [] ++ f.text

structure Kept (before : String → Option (List Byte)) (l : LogFile) : Prop where
  held : ∀ name, (l.contents name).getD [] =
    (before name).getD [] ++ (l.files.filter (·.filename = name)).flatMap RolledFile.text
  missing : ∀ name, l.contents name = none ↔
    before name = none ∧ ∀ f ∈ l.files, f.filename ≠ name

structure Created (before : String → Option (List Byte)) (files : List RolledFile) : Prop where
  found : ∀ f ∈ files, f.found = none
  new : ∀ f ∈ files, before f.filename = none
  distinct : (files.map RolledFile.filename).Nodup

section Late
variable {f g : RolledFile} {r : LogRecord}

theorem lateRecords_grown (h : LogFile.Grown f g r) :
    g.lateRecords = f.lateRecords ++ [r].filter fun r => f.startOfPeriod < periodOf r.now := by
  simp only [RolledFile.lateRecords, h.received, h.period, List.filter_append]

theorem late_length_le (h : LogFile.Grown f g r) :
    g.lateRecords.length ≤ f.lateRecords.length + 1 := by
  have one := List.length_filter_le (fun r => decide (f.startOfPeriod < periodOf r.now)) [r]
  rw [lateRecords_grown h, List.length_append]
  rw [List.length_singleton] at one
  omega

theorem late_nil (h : LogFile.Grown f g r)
    (overdue : f.lateRecords ≠ [] → f.startOfPeriod < periodOf r.now)
    (fresh : ¬f.startOfPeriod < periodOf r.now) : g.lateRecords = [] := by
  have before : f.lateRecords = [] := by
    by_contra some
    exact fresh (overdue some)
  rw [lateRecords_grown h, before]
  exact List.filter_eq_nil_iff.mpr fun _ mem => by
    rw [List.mem_singleton.mp mem, decide_eq_true_eq]
    exact fresh

end Late

section Step
variable {timebuf getErrnoMsg : ℤ → String} {l : LogFile} {clock : ℤ} {f g : RolledFile}
  {r : LogRecord}

theorem bounded_rolled {now : ℤ} (hl : l.file_ = some g) (positive : 0 < now)
    (nonneg : 0 ≤ l.counts_) (below : l.counts_ < l.checkEveryN_)
    (late : g.lateRecords.length ≤ l.checkEveryN_)
    (closed : ∀ g ∈ l.closed, g.lateRecords.length ≤ l.checkEveryN_) :
    ∃ f, Bounded (l.rolled timebuf now) now f := by
  refine ⟨_, rfl, positive, le_rfl, rfl, rfl, nonneg, below, nonneg,
    fun some => absurd rfl some, ?_, .inr rfl⟩
  intro g' mem
  rcases List.mem_append.mp mem with old | new
  · exact closed g' old
  · rw [hl, Option.toList_some, List.mem_singleton] at new
    exact new ▸ late

theorem bounded_check (h : Bounded l clock f) (grown : LogFile.Grown f g r)
    (timely : clock ≤ r.now) :
    ∃ f', Bounded (LogFile.check timebuf { l with file_ := some g } g r.now) r.now f' := by
  have overdue : f.lateRecords ≠ [] → f.startOfPeriod < periodOf r.now := fun some =>
    (h.overdue some).trans_le (periodOf_mono (h.positive.trans_le h.past) timely)
  have some_late : g.lateRecords ≠ [] → g.startOfPeriod < periodOf r.now := by
    intro some
    rw [grown.period]
    exact not_imp_comm.mp (late_nil grown overdue) some
  have counted : (g.lateRecords.length : ℤ) ≤ l.counts_ + 1 := by
    have more := late_length_le grown
    have before := h.counted
    omega
  have late : (g.lateRecords.length : ℤ) ≤ l.checkEveryN_ := counted.trans h.counts_lt
  have positive : 0 < r.now := (h.positive.trans_le h.past).trans_le timely
  have past : l.lastRoll_ ≤ r.now := h.past.trans timely
  have same : g.startOfPeriod = l.startOfPeriod_ := grown.period.trans h.same
  have nonneg := h.counts_nonneg
  -- in the period of the last roll nothing in the file is late
  have quiet : periodOf r.now = l.startOfPeriod_ → g.lateRecords = [] := by
    intro today
    by_contra some
    have later := some_late some
    rw [same, today] at later
    exact later.false
  rcases LogFile.check_cases timebuf r.now (l := { l with file_ := some g }) rfl with
    ⟨-, same_step⟩ | ⟨small, ⟨below, same_step⟩ | ⟨-, other, same_step⟩ |
      ⟨today, flushed, same_step⟩⟩
  · rw [same_step]
    by_cases later : l.lastRoll_ < r.now
    · rw [LogFile.rollFile_later timebuf (l := { l with file_ := some g }) later]
      exact bounded_rolled rfl positive nonneg h.counts_lt late h.closed_late
    · -- the second roll of one second is refused
      have now_eq : r.now = l.lastRoll_ := le_antisymm (not_lt.mp later) past
      have none : g.lateRecords = [] := quiet (by rw [now_eq, h.period])
      rw [LogFile.rollFile_refused timebuf (l := { l with file_ := some g }) later]
      exact ⟨g, rfl, h.positive, past, h.period, same, nonneg, h.counts_lt,
        by rw [none]; exact nonneg, some_late, h.closed_late, .inr now_eq⟩
  · rw [same_step]
    exact ⟨g, rfl, h.positive, past, h.period, same, Int.le_add_one nonneg, below, counted,
      some_late, h.closed_late, .inl small⟩
  · have later : l.lastRoll_ < r.now := by
      apply later_of_period_lt positive
      rw [← h.period]
      refine lt_of_le_of_ne ?_ (Ne.symm other)
      rw [h.period]
      exact periodOf_mono h.positive past
    rw [same_step,
      LogFile.rollFile_later timebuf (l := { l with file_ := some g, counts_ := 0 }) later]
    exact bounded_rolled rfl positive le_rfl (nonneg.trans_lt h.counts_lt) late h.closed_late
  · rw [same_step]
    exact ⟨g, rfl, h.positive, past, h.period, same, le_rfl, nonneg.trans_lt h.counts_lt,
      by rw [quiet today]; exact le_rfl, some_late, h.closed_late, .inl small⟩

variable (timebuf getErrnoMsg) in
theorem append_returns (h : Bounded l clock f) {c : LogCall}
    (full : c.accepts 0 = c.record.data.length) (turns : 2 ≤ c.fuel) :
    ∃ g, LogFile.Grown f g c.record ∧
      l.append timebuf getErrnoMsg c.accepts c.fuel c.record =
        some (LogFile.check timebuf { l with file_ := some g } g c.record.now) := by
  obtain ⟨g, written, grown⟩ := LogFile.write_full getErrnoMsg f full turns
  refine ⟨g, grown, ?_⟩
  rw [LogFile.append, LogFile.appendInLock, h.current, Option.bind_some, written]
  rfl

theorem filter_of_nodup_map {α β : Type*} [DecidableEq β] {key : α → β} {xs : List α} {x : α}
    (distinct : (xs.map key).Nodup) (mem : x ∈ xs) :
    xs.filter (fun y => key y = key x) = [x] := by
  induction xs with
  | nil => cases mem
  | cons y ys ih =>
    rw [List.map_cons, List.nodup_cons] at distinct
    obtain ⟨first, others⟩ := distinct
    rcases List.mem_cons.mp mem with rfl | later
    · rw [List.filter_cons_of_pos (by simp), List.filter_eq_nil_iff.mpr]
      intro z hz
      rw [decide_eq_true_eq]
      exact fun same => first (same ▸ List.mem_map_of_mem hz)
    · rw [List.filter_cons_of_neg, ih others later]
      rw [decide_eq_true_eq]
      exact fun same => first (same ▸ List.mem_map_of_mem later)

theorem kept_unopened (basename : String) (rollSize flushInterval checkEveryN : ℤ)
    (disk : String → Option (List Byte)) :
    Kept disk (LogFile.unopened basename rollSize flushInterval checkEveryN disk) :=
  ⟨fun _ => (List.append_nil _).symm,
    fun _ => (and_iff_left fun _ mem => absurd mem List.not_mem_nil).symm⟩

theorem created_unopened (basename : String) (rollSize flushInterval checkEveryN : ℤ)
    (disk : String → Option (List Byte)) :
    Created disk (LogFile.unopened basename rollSize flushInterval checkEveryN disk).files :=
  ⟨fun _ mem => absurd mem List.not_mem_nil, fun _ mem => absurd mem List.not_mem_nil,
    List.nodup_nil⟩

theorem created_names {before : String → Option (List Byte)} (created : Created before l.files) :
    l.created = l.files.map RolledFile.filename := by
  rw [LogFile.created, List.filter_eq_self.mpr]
  intro f mem
  rw [created.found f mem]
  rfl

theorem text_grown (grown : LogFile.Grown f g r) : g.text = f.text ++ r.data := by
  simp [RolledFile.text, grown.received]

theorem files_current (hl : l.file_ = some f) : l.files = l.closed ++ [f] := by
  rw [LogFile.files, hl, Option.toList_some]

theorem contents_current (hl : l.file_ = some f) :
    l.contents = Function.update l.disk f.filename (some f.file.fp_.bytes) := by
  rw [LogFile.contents, hl]

theorem faithful_grown {closed : List RolledFile} {appended : List LogRecord}
    (h : Faithful (closed ++ [f]) appended) (grown : LogFile.Grown f g r) :
    Faithful (closed ++ [g]) (appended ++ [r]) := by
  obtain ⟨order, content⟩ := h
  constructor
  · rw [← order]
    simp [grown.received]
  · intro g' mem
    rcases List.mem_append.mp mem with old | new
    · exact content g' (List.mem_append_left _ old)
    · rw [List.mem_singleton.mp new, grown.bytes, grown.found, text_grown grown,
        content f (List.mem_append_right _ (List.mem_singleton_self f)), List.append_assoc]

theorem faithful_opened {k : LogFile} {name : String} {appended : List LogRecord}
    (h : Faithful l.files appended) (opened : LogFile.Opened l k name) :
    Faithful k.files appended := by
  obtain ⟨order, content⟩ := h
  obtain ⟨fresh, files, -, found, empty, bytes⟩ := opened.files
  rw [files]
  constructor
  · rw [← order]
    simp [empty]
  · intro g' mem
    rcases List.mem_append.mp mem with old | new
    · exact content g' old
    · rw [List.mem_singleton.mp new, bytes, found, RolledFile.text, empty, List.flatMap_nil,
        List.append_nil]

theorem kept_grown {before : String → Option (List Byte)} (h : Kept before l)
    (hl : l.file_ = some f) (grown : LogFile.Grown f g r) :
    Kept before { l with file_ := some g } := by
  have files := files_current hl
  have contents := contents_current hl
  have files' := files_current (l := { l with file_ := some g }) rfl
  have contents' : LogFile.contents { l with file_ := some g } =
      Function.update l.disk f.filename (some g.file.fp_.bytes) :=
    grown.filename ▸ contents_current (l := { l with file_ := some g }) rfl
  constructor
  · intro name
    have held := h.held name
    rw [files, contents] at held
    rw [files', contents']
    by_cases own : f.filename = name
    · subst own
      simp only [Function.update_self, Option.getD_some, List.filter_append, List.flatMap_append,
        grown.filename, decide_true, List.filter_cons_of_pos, List.filter_nil,
        List.flatMap_cons, List.flatMap_nil, List.append_nil] at held ⊢
      rw [grown.bytes, held, text_grown grown]
      simp only [List.append_assoc]
    · simp only [Function.update_of_ne (Ne.symm own), List.filter_append, grown.filename, own,
        decide_false, Bool.false_eq_true, not_false_eq_true, List.filter_cons_of_neg,
        List.filter_nil, List.append_nil] at held ⊢
      exact held
  · intro name
    have missing := h.missing name
    rw [files, contents] at missing
    rw [files', contents']
    simp only [List.forall_mem_append, List.forall_mem_singleton, grown.filename] at missing ⊢
    rw [← missing]
    by_cases own : f.filename = name
    · subst own
      simp only [Function.update_self, reduceCtorEq]
    · simp only [Function.update_of_ne (Ne.symm own)]

/-- A file that is opened keeps what it holds, and one that is created is empty. -/
theorem kept_opened {before : String → Option (List Byte)} {k : LogFile} {name : String}
    (h : Kept before l) (opened : LogFile.Opened l k name) : Kept before k := by
  obtain ⟨fresh, files, named, -, empty, -⟩ := opened.files
  have text : fresh.text = [] := by rw [RolledFile.text, empty, List.flatMap_nil]
  constructor
  · intro other
    have none_ : ([fresh].filter (·.filename = other)).flatMap RolledFile.text = [] :=
      List.flatMap_eq_nil_iff.mpr fun f mem =>
        List.mem_singleton.mp (List.mem_of_mem_filter mem) ▸ text
    rw [files, opened.contents, List.filter_append, List.flatMap_append, none_, List.append_nil,
      ← h.held other]
    by_cases own : other = name
    · rw [own, Function.update_self, Option.getD_some]
    · rw [Function.update_of_ne own]
  · intro other
    rw [files, opened.contents, List.forall_mem_append, List.forall_mem_singleton, named]
    by_cases own : other = name
    · simp [own]
    · rw [Function.update_of_ne own, h.missing other]
      simp [Ne.symm own]

theorem created_grown {before : String → Option (List Byte)} {closed : List RolledFile}
    (h : Created before (closed ++ [f])) (grown : LogFile.Grown f g r) :
    Created before (closed ++ [g]) := by
  obtain ⟨found, new, distinct⟩ := h
  rw [List.forall_mem_append, List.forall_mem_singleton] at found new
  refine ⟨?_, ?_, ?_⟩
  · rw [List.forall_mem_append, List.forall_mem_singleton, grown.found]
    exact found
  · rw [List.forall_mem_append, List.forall_mem_singleton, grown.filename]
    exact new
  · simpa only [List.map_append, List.map_cons, List.map_nil, grown.filename] using distinct

theorem created_opened {before : String → Option (List Byte)} {k : LogFile} {name : String}
    (h : Created before l.files) (kept : Kept before l) (opened : LogFile.Opened l k name)
    (absent : l.contents name = none) : Created before k.files := by
  obtain ⟨fresh, files, named, found, -, -⟩ := opened.files
  obtain ⟨new, others⟩ := (kept.missing name).mp absent
  rw [files]
  refine ⟨?_, ?_, ?_⟩
  · rw [List.forall_mem_append, List.forall_mem_singleton, found]
    exact ⟨h.found, absent⟩
  · rw [List.forall_mem_append, List.forall_mem_singleton, named]
    exact ⟨h.new, new⟩
  · rw [List.map_append, List.map_singleton, named, List.nodup_append]
    refine ⟨h.distinct, List.nodup_singleton _, fun a mem b single same => ?_⟩
    obtain ⟨f, hf, rfl⟩ := List.mem_map.mp mem
    exact others f hf (same.trans (List.mem_singleton.mp single))

theorem found_opened {k : LogFile} {name : String} (h : ∀ f ∈ l.files, f.found = none)
    (opened : LogFile.Opened l k name) :
    (∀ f ∈ k.files, f.found = none) ↔ l.contents name = none := by
  obtain ⟨fresh, files, -, found, -, -⟩ := opened.files
  rw [files, List.forall_mem_append, List.forall_mem_singleton, found, and_iff_right h]

theorem contents_created {before : String → Option (List Byte)} (kept : Kept before l)
    (created : Created before l.files) (mem : f ∈ l.files) :
    l.contents f.filename = some f.text := by
  have held := kept.held f.filename
  have alone := filter_of_nodup_map created.distinct mem
  have exists_ : l.contents f.filename ≠ none := fun none_ =>
    ((kept.missing f.filename).mp none_).2 f mem rfl
  obtain ⟨bytes, some_⟩ := Option.ne_none_iff_exists'.mp exists_
  rw [some_, Option.getD_some, created.new f mem, alone] at held
  simpa [some_] using held

end Step

structure Rolling (s : LogSession) : Prop where
  bounded : ∃ f, Bounded s.log s.clock f
  faithful : Faithful s.log.files s.appended
  kept : Kept s.before s.log

/-- The streams received the records one after the other, each record by one of them; and a file
holds what it held before, and behind it what the streams of its name received. -/
structure Stored (s : LogSession) : Prop where
  order : s.log.files.flatMap RolledFile.received = s.appended
  streams : ∀ f ∈ s.log.files, f.file.fp_.bytes = f.found.getD [] ++ f.text
  files : ∀ name, (s.log.contents name).getD [] = (s.before name).getD [] ++
    (s.log.files.filter (·.filename = name)).flatMap RolledFile.text

theorem Rolling.stored {s : LogSession} (h : Rolling s) : Stored s :=
  ⟨h.faithful.1, h.faithful.2, h.kept.held⟩

section Runs
variable {timebuf getErrnoMsg : ℤ → String} {s t : LogSession} {c : LogCall} {f g : RolledFile}

theorem construct_opened (timebuf : ℤ → String) (basename : String)
    (rollSize flushInterval checkEveryN : ℤ) (disk : String → Option (List Byte)) {now : ℤ}
    (positive : 0 < now) :
    LogFile.Opened (LogFile.unopened basename rollSize flushInterval checkEveryN disk)
      (LogFile.construct timebuf basename rollSize flushInterval checkEveryN now disk)
      (LogFile.getLogFileName timebuf basename now) :=
  LogFile.rollFile_opened timebuf positive

theorem rolling_initial (h : (system timebuf getErrnoMsg).init s) : Rolling s := by
  obtain ⟨basename, rollSize, flushInterval, checkEveryN, now, disk, positive, often, rfl⟩ := h
  have opened := construct_opened timebuf basename rollSize flushInterval checkEveryN disk positive
  refine ⟨?_, faithful_opened ⟨rfl, fun _ mem => absurd mem List.not_mem_nil⟩ opened,
    kept_opened (kept_unopened _ _ _ _ disk) opened⟩
  have made := LogFile.rollFile_later timebuf
    (l := LogFile.unopened basename rollSize flushInterval checkEveryN disk) positive
  simp only [LogFile.construct, made]
  exact ⟨_, rfl, positive, le_rfl, rfl, rfl, le_rfl, Int.lt_of_lt_of_le Int.one_pos often,
    le_rfl, fun some => absurd rfl some, fun _ mem => absurd mem List.not_mem_nil, .inr rfl⟩

theorem next_shape (h : Rolling s) (timely : s.Timely c)
    (step : (system timebuf getErrnoMsg).next s c = some t) :
    ∃ f g, Bounded s.log s.clock f ∧ LogFile.Grown f g c.record ∧
      t = ⟨LogFile.check timebuf { s.log with file_ := some g } g c.record.now, c.record.now,
        s.appended ++ [c.record], s.before⟩ := by
  obtain ⟨f, bounded⟩ := h.bounded
  obtain ⟨-, full, turns⟩ := timely
  obtain ⟨g, grown, returns⟩ := append_returns timebuf getErrnoMsg bounded full turns
  simp only [system, returns, Option.map_some, Option.some.injEq] at step
  exact ⟨f, g, bounded, grown, step.symm⟩

/-- The record is written, and nothing has been checked yet. -/
theorem written_valid (h : Rolling s) (bounded : Bounded s.log s.clock f)
    (grown : LogFile.Grown f g c.record) :
    Faithful (LogFile.files { s.log with file_ := some g }) (s.appended ++ [c.record]) ∧
      Kept s.before { s.log with file_ := some g } := by
  refine ⟨?_, kept_grown h.kept bounded.current grown⟩
  rw [files_current (l := { s.log with file_ := some g }) rfl]
  exact faithful_grown (files_current bounded.current ▸ h.faithful) grown

theorem rolling_step (h : Rolling s) (timely : s.Timely c)
    (step : (system timebuf getErrnoMsg).next s c = some t) : Rolling t := by
  obtain ⟨f, g, bounded, grown, rfl⟩ := next_shape h timely step
  obtain ⟨faithful, kept⟩ := written_valid h bounded grown
  by_cases rolls : LogFile.Rolls { s.log with file_ := some g } g c.record.now
  · have opened := LogFile.check_opened timebuf rfl rolls
    exact ⟨bounded_check bounded grown timely.1, faithful_opened faithful opened,
      kept_opened kept opened⟩
  · obtain ⟨files, contents⟩ := LogFile.check_stays timebuf rfl rolls
    exact ⟨bounded_check bounded grown timely.1, files ▸ faithful,
      ⟨contents ▸ files ▸ kept.held, contents ▸ files ▸ kept.missing⟩⟩

theorem rolling_valid (h : (system timebuf getErrnoMsg).Reachable Timely s) : Rolling s :=
  h.invariant (fun _ base => rolling_initial base)
    fun _ _ _ before timely step => rolling_step before timely step

theorem created_initial (h : (system timebuf getErrnoMsg).init s)
    (absent : s.before (LogFile.getLogFileName timebuf s.log.basename_ s.clock) = none) :
    Created s.before s.log.files := by
  obtain ⟨basename, rollSize, flushInterval, checkEveryN, now, disk, positive, -, rfl⟩ := h
  have named : (LogFile.construct timebuf basename rollSize flushInterval checkEveryN now
      disk).basename_ = basename := by
    rw [LogFile.construct, LogFile.rollFile_later timebuf positive]
    rfl
  rw [named] at absent
  exact created_opened (created_unopened _ _ _ _ disk) (kept_unopened _ _ _ _ disk)
    (construct_opened timebuf basename rollSize flushInterval checkEveryN disk positive) absent

theorem rolls_grown (bounded : Bounded s.log s.clock f) (grown : LogFile.Grown f g c.record) :
    LogFile.Rolls { s.log with file_ := some g } g c.record.now ↔ s.Rolls c := by
  have written : g.file.writtenBytes = s.written + c.record.data.length := by
    rw [grown.written, LogSession.written, bounded.current, Option.map_some, Option.getD_some]
  rw [LogFile.Rolls, written]
  exact Iff.rfl

theorem missing_grown (h : Rolling s) (bounded : Bounded s.log s.clock f)
    (grown : LogFile.Grown f g c.record) (name : String) :
    LogFile.contents { s.log with file_ := some g } name = none ↔ s.log.contents name = none := by
  have kept := kept_grown h.kept bounded.current grown
  rw [kept.missing, h.kept.missing, files_current bounded.current,
    files_current (l := { s.log with file_ := some g }) rfl]
  simp only [List.forall_mem_append, List.forall_mem_singleton, grown.filename]

/-- After a run that created its files a step keeps to that exactly when it meets the condition. -/
theorem created_step (h : Rolling s) (created : Created s.before s.log.files)
    (timely : s.Timely c) (step : (system timebuf getErrnoMsg).next s c = some t) :
    (s.Creates timebuf c → Created t.before t.log.files) ∧
      ((∀ f ∈ t.log.files, f.found = none) ↔ s.Creates timebuf c) := by
  obtain ⟨f, g, bounded, grown, rfl⟩ := next_shape h timely step
  have kept := (written_valid h bounded grown).2
  have written : Created s.before (LogFile.files { s.log with file_ := some g }) := by
    rw [files_current (l := { s.log with file_ := some g }) rfl]
    exact created_grown (files_current bounded.current ▸ created) grown
  rw [Creates, ← rolls_grown bounded grown, ← missing_grown h bounded grown]
  by_cases rolls : LogFile.Rolls { s.log with file_ := some g } g c.record.now
  · have opened := LogFile.check_opened timebuf rfl rolls
    exact ⟨fun ok => created_opened written kept opened (ok rolls),
      (found_opened written.found opened).trans ⟨fun absent _ => absent, fun ok => ok rolls⟩⟩
  · have stays := (LogFile.check_stays timebuf rfl rolls).1
    exact ⟨fun _ => stays ▸ written,
      iff_of_true (stays ▸ written.found) fun rolls' => absurd rolls' rolls⟩

theorem created_valid {s₀ : LogSession} (made : (system timebuf getErrnoMsg).init s₀)
    (first : s₀.before (LogFile.getLogFileName timebuf s₀.log.basename_ s₀.clock) = none)
    (h : (system timebuf getErrnoMsg).Path (fun s c => s.Timely c ∧ s.Creates timebuf c) s₀ s) :
    Rolling s ∧ Created s.before s.log.files := by
  refine h.stable (P := fun s => Rolling s ∧ Created s.before s.log.files)
    (fun s c t held ok step => ?_) ⟨rolling_initial made, created_initial made first⟩
  exact ⟨rolling_step held.1 ok.1 step, (created_step held.1 held.2 ok.1 step).1 ok.2⟩

/-- Files of distinct names, one after the other, hold the records one after the other. -/
theorem created_concat (h : Rolling s) (created : Created s.before s.log.files) :
    s.log.created.flatMap (fun name => (s.log.contents name).getD []) =
      s.appended.flatMap LogRecord.data := by
  have each : ∀ f ∈ s.log.files, (s.log.contents f.filename).getD [] = f.text := fun f mem => by
    rw [contents_created h.kept created mem, Option.getD_some]
  rw [created_names created, List.flatMap_map, List.flatMap_congr each, ← h.faithful.1,
    List.flatMap_assoc]
  rfl

/-- While every `fopen` creates its file, the constructor's included, every call returns and leaves
the files, in the order of their creation, with the records one after the other, each in one file.
The current file is no larger than `rollSize_` unless it was rolled in this second, and no file
has more than `checkEveryN_` records of later days. A call whose `fopen` finds a file leaves that
state of things at once. -/
theorem files_bounded (timebuf getErrnoMsg : ℤ → String) (s₀ s : LogSession)
    (made : (system timebuf getErrnoMsg).init s₀)
    (first : s₀.before (LogFile.getLogFileName timebuf s₀.log.basename_ s₀.clock) = none)
    (h : (system timebuf getErrnoMsg).Path (fun s c => s.Timely c ∧ s.Creates timebuf c) s₀ s) :
    (∀ c, s.Timely c → ((system timebuf getErrnoMsg).next s c).isSome) ∧
    s.log.startOfPeriod_ = s.log.lastRoll_ / 86400 * 86400 ∧
    s.log.files.flatMap RolledFile.received = s.appended ∧
    (∀ f ∈ s.log.files, f.found = none ∧
      f.file.fp_.bytes = f.received.flatMap LogRecord.data ∧
      s.log.contents f.filename = some f.file.fp_.bytes) ∧
    s.log.created = s.log.files.map RolledFile.filename ∧ s.log.created.Nodup ∧
    s.log.created.flatMap (fun name => (s.log.contents name).getD []) =
      s.appended.flatMap LogRecord.data ∧
    (∃ f, s.log.file_ = some f ∧ f.startOfPeriod = s.log.startOfPeriod_ ∧
      (f.file.writtenBytes ≤ s.log.rollSize_ ∨ s.clock = s.log.lastRoll_)) ∧
    (∀ f ∈ s.log.files, f.lateRecords.length ≤ s.log.checkEveryN_) ∧
    ∀ c t, s.Timely c → (system timebuf getErrnoMsg).next s c = some t →
      ((∀ f ∈ t.log.files, f.found = none) ↔ s.Creates timebuf c) := by
  obtain ⟨rolling, created⟩ := created_valid made first h
  obtain ⟨⟨f, bounded⟩, ⟨order, content⟩, kept⟩ := id rolling
  have names := created_names created
  refine ⟨?_, ?_, order, ?_, names, names ▸ created.distinct, created_concat rolling created,
    ⟨f, bounded.current, bounded.same, bounded.size⟩, ?_,
    fun c t timely step => (created_step rolling created timely step).2⟩
  · rintro c ⟨-, full, turns⟩
    obtain ⟨g, -, returns⟩ :=
      append_returns timebuf getErrnoMsg bounded full turns
    simp [system, returns]
  · rw [bounded.period, periodOf_eq bounded.positive]
    rfl
  · intro f mem
    have bytes : f.file.fp_.bytes = f.text := by
      rw [content f mem, created.found f mem]
      rfl
    exact ⟨created.found f mem, bytes, bytes ▸ contents_created kept created mem⟩
  · intro g mem
    rcases List.mem_append.mp mem with old | current
    · exact bounded.closed_late g old
    · rw [bounded.current, Option.toList_some, List.mem_singleton] at current
      rw [current]
      exact bounded.counted.trans bounded.counts_lt.le

def sampleTime (now : ℤ) : String :=
  if now = 86399 then ".19700101-235959"
  else if now = 86400 then ".19700102-000000"
  else ".19700102-000001"

def twoDays : LogSession :=
  ⟨LogFile.construct sampleTime "log" 5 3 2 86399 fun _ => none, 86399, [], fun _ => none⟩

/-- Two files are replaced: the first as the day is over, the second one second late. -/
theorem files_bounded_two_days :
    ∃ s : LogSession, (system sampleTime fun _ => "Operation not permitted").Path
        (fun s c => s.Timely c ∧ s.Creates sampleTime c) twoDays s ∧
      s.log.files.map (fun f => f.received.length) = [2, 2, 0] ∧
      s.log.created = ["log.19700101-235959.log", "log.19700102-000000.log",
        "log.19700102-000001.log"] ∧
      s.log.created.flatMap (fun name => (s.log.contents name).getD []) =
        s.appended.flatMap LogRecord.data ∧
      ∀ f ∈ s.log.files, f.lateRecords.length ≤ s.log.checkEveryN_ := by
  have run : ((system sampleTime fun _ => "Operation not permitted").execute
      (fun s c => s.Timely c ∧ s.Creates sampleTime c) twoDays
      [⟨⟨86399, [97, 98, 99]⟩, fun _ => 3, 2⟩, ⟨⟨86400, [100]⟩, fun _ => 1, 2⟩,
        ⟨⟨86400, [97, 98, 99, 100, 101, 102]⟩, fun _ => 6, 2⟩,
        ⟨⟨86401, [103]⟩, fun _ => 1, 2⟩]).map
      (fun s => (s.log.files.map fun f => f.received.length, s.log.created)) =
      some ([2, 2, 0], ["log.19700101-235959.log", "log.19700102-000000.log",
        "log.19700102-000001.log"]) := by decide +kernel
  obtain ⟨s, left, fields⟩ := Option.map_eq_some_iff.mp run
  simp only [Prod.mk.injEq] at fields
  have path := System.Path.of_execute left
  have result := files_bounded _ _ twoDays s ⟨"log", 5, 3, 2, 86399, fun _ => none, by decide,
    by decide, rfl⟩ rfl path
  exact ⟨s, path, fields.1, fields.2, result.2.2.2.2.2.2.1, result.2.2.2.2.2.2.2.2.1⟩

def autumnTime (now : ℤ) : String :=
  if now = 1698539400 then ".20231029-023000"
  else if now = 1698541200 then ".20231029-020000"
  else if now = 1698543000 then ".20231029-023000"
  else ".20231029-023001"

def autumn : LogSession :=
  ⟨LogFile.construct autumnTime "log" 0 3 1024 1698539400 fun _ => none, 1698539400, [],
    fun _ => none⟩

/-- Half past two comes twice: the third stream opens the first file again, and the third record
stands behind the first, before the second. -/
theorem files_continued :
    ∃ s : LogSession, (system autumnTime fun _ => "Operation not permitted").init autumn ∧
      (system autumnTime fun _ => "Operation not permitted").Path Timely autumn s ∧
      s.log.created = ["log.20231029-023000.log", "log.20231029-020000.log",
        "log.20231029-023001.log"] ∧
      s.log.contents "log.20231029-023000.log" = some [97, 99] ∧
      s.log.created.flatMap (fun name => (s.log.contents name).getD []) = [97, 99, 98] ∧
      s.appended.flatMap LogRecord.data = [97, 98, 99] ∧
      s.log.created.flatMap (fun name => (s.log.contents name).getD []) ≠
        s.appended.flatMap LogRecord.data := by
  have run : ((system autumnTime fun _ => "Operation not permitted").execute Timely autumn
      [⟨⟨1698541200, [97]⟩, fun _ => 1, 2⟩, ⟨⟨1698543000, [98]⟩, fun _ => 1, 2⟩,
        ⟨⟨1698543001, [99]⟩, fun _ => 1, 2⟩]).map
      (fun s => (s.log.created, s.log.contents "log.20231029-023000.log",
        s.log.created.flatMap fun name => (s.log.contents name).getD [],
        s.appended.flatMap LogRecord.data)) =
      some (["log.20231029-023000.log", "log.20231029-020000.log", "log.20231029-023001.log"],
        some [97, 99], [97, 99, 98], [97, 98, 99]) := by decide +kernel
  obtain ⟨s, left, fields⟩ := Option.map_eq_some_iff.mp run
  simp only [Prod.mk.injEq] at fields
  exact ⟨s, ⟨"log", 0, 3, 1024, 1698539400, fun _ => none, by decide, by decide, rfl⟩,
    System.Path.of_execute left, fields.1, fields.2.1, fields.2.2.1, fields.2.2.2,
    by rw [fields.2.2.1, fields.2.2.2]; decide⟩

end Runs

end LogSession
end TinyNetwork

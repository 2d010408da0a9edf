import TinyNetwork.OrderedSet
import TinyNetwork.Transition
import Mathlib.Data.Int.Notation
import Mathlib.Data.List.Induction
import Mathlib.Data.Prod.Lex
import Mathlib.Logic.Function.Basic

/-! Timers of a loop: `time/Timer.h`, `time/Timestamp.h` and `time/TimerQueue.cc`.
Instants are microseconds as integers. The timers live on a heap by address, the
set `timers_` orders pairs of instant and address, and the timerfd is disarmed,
armed, or expired and unread. `clock` gives the successive readings of
`Timestamp::now()`. A callback is the list of timers it adds. -/
namespace TinyNetwork
open Transition

def kMicroSecondsPerSecond : ℤ := 1000 * 1000

/-- The `double` interval of a timer, as the two values the code derives from it:
whether it is above `0.0`, and the microseconds `addTime` adds for it. -/
structure Interval where
  positive : Bool
  micros : ℤ

structure Timer where
  expiration_ : ℤ
  interval_ : Interval
  repeat_ : Bool

namespace Timer

def construct (when : ℤ) (interval : Interval) : Timer := ⟨when, interval, interval.positive⟩

def restart (t : Timer) : Timer :=
  if t.repeat_ then { t with expiration_ := t.expiration_ + t.interval_.micros }
  else { t with expiration_ := 0 }

end Timer

inductive Timerfd where
  | disarmed
  | armed
  | expired
  deriving DecidableEq

namespace Timerfd

/-- `::timerfd_settime` with a zero `it_interval`: a zero `it_value` disarms, and a value
out of range is refused. -/
def settime (fd : Timerfd) (tv_sec tv_nsec : ℤ) : Timerfd :=
  if tv_sec < 0 ∨ tv_nsec < 0 ∨ 1000000000 ≤ tv_nsec then fd
  else if tv_sec = 0 ∧ tv_nsec = 0 then .disarmed
  else .armed

def read : Timerfd → Timerfd
  | .expired => .disarmed
  | fd => fd

end Timerfd

/-- `std::pair<Timestamp, Timer*>` with its lexicographic order. -/
abbrev Entry := ℤ ×ₗ ℕ

namespace Entry

def mk (when : ℤ) (timer : ℕ) : Entry := toLex (when, timer)

def timestamp (e : Entry) : ℤ := (ofLex e).1

def timer (e : Entry) : ℕ := (ofLex e).2

theorem lt_sentry {e : Entry} {now : ℤ} : e < mk now 0 ↔ e.timestamp < now := by
  rw [Prod.Lex.lt_iff]
  simp [mk, timestamp]

end Entry

inductive TimerEvent where
  | run (timer : ℕ) (expiration now : ℤ)
  | delete (timer : ℕ)
  deriving DecidableEq

structure TimerQueue where
  heap : ℕ → Option Timer
  timers_ : OrderedSet Entry
  timerfd_ : Timerfd
  readings : ℕ
  history : List TimerEvent

structure NewTimer where
  timer : ℕ
  when : ℤ
  interval : Interval

namespace TimerQueue

def construct : TimerQueue := ⟨fun _ => none, OrderedSet.empty, .disarmed, 0, []⟩

/-- `*timer`; nothing is promised about a dangling pointer. -/
def deref (q : TimerQueue) (timer : ℕ) : Timer :=
  (q.heap timer).getD (Timer.construct 0 ⟨false, 0⟩)

def store (q : TimerQueue) (timer : ℕ) (t : Option Timer) : TimerQueue :=
  { q with heap := Function.update q.heap timer t }

def record (q : TimerQueue) (e : TimerEvent) : TimerQueue := { q with history := q.history ++ [e] }

def insert (q : TimerQueue) (timer : ℕ) : TimerQueue × Bool :=
  let when := (q.deref timer).expiration_
  let earliestChanged := match q.timers_.first? with
    | none => true
    | some e => decide (when < e.timestamp)
  ({ q with timers_ := q.timers_.insert (Entry.mk when timer) }, earliestChanged)

def getExpired (q : TimerQueue) (now : ℤ) : List Entry × TimerQueue :=
  let sentry := Entry.mk now 0
  (q.timers_.before sentry, { q with timers_ := q.timers_.eraseBefore sentry })

section Clock
variable (clock : ℕ → ℤ)

def now (q : TimerQueue) : ℤ × TimerQueue :=
  (clock q.readings, { q with readings := q.readings + 1 })

def resetTimerfd (q : TimerQueue) (expiration : ℤ) : TimerQueue :=
  let (now, q) := q.now clock
  let microSecondDif := if expiration - now < 100 then 100 else expiration - now
  { q with
    timerfd_ := q.timerfd_.settime (microSecondDif.tdiv kMicroSecondsPerSecond)
      (microSecondDif.tmod kMicroSecondsPerSecond * 1000) }

def addTimerInLoop (q : TimerQueue) (timer : ℕ) : TimerQueue :=
  let (q, earliestChanged) := q.insert timer
  if earliestChanged then q.resetTimerfd clock (q.deref timer).expiration_ else q

def addTimer (q : TimerQueue) (t : NewTimer) : Option TimerQueue :=
  if t.timer ≠ 0 ∧ (q.heap t.timer).isNone then
    some ((q.store t.timer (some (Timer.construct t.when t.interval))).addTimerInLoop clock
      t.timer)
  else none

def addTimers (q : TimerQueue) : List NewTimer → Option TimerQueue
  | [] => some q
  | t :: rest => (q.addTimer clock t).bind fun q => q.addTimers rest

def runExpired (now : ℤ) (q : TimerQueue) :
    List Entry → List (List NewTimer) → Option TimerQueue
  | [], _ => some q
  | e :: rest, callbacks =>
    ((q.record (.run e.timer (q.deref e.timer).expiration_ now)).addTimers clock
      (callbacks.headD [])).bind fun q => q.runExpired now rest callbacks.tail

def resetOne (q : TimerQueue) (e : Entry) : TimerQueue :=
  let q :=
    if (q.deref e.timer).repeat_ then
      let (_, q) := q.now clock
      ((q.store e.timer (some (q.deref e.timer).restart)).insert e.timer).1
    else (q.store e.timer none).record (.delete e.timer)
  match q.timers_.first? with
  | none => q
  | some first => q.resetTimerfd clock (q.deref first.timer).expiration_

def reset (q : TimerQueue) (expired : List Entry) : TimerQueue :=
  expired.foldl (resetOne clock) q

def handleRead (q : TimerQueue) (callbacks : List (List NewTimer)) : Option TimerQueue :=
  let (now, q) := q.now clock
  let q := { q with timerfd_ := q.timerfd_.read }
  let (expired, q) := q.getExpired now
  (q.runExpired clock now expired callbacks).map fun q => q.reset clock expired

end Clock

/-- Timers wait only while the timerfd is armed or has an unread expiration. -/
def Waiting (q : TimerQueue) : Prop := q.timers_.elements ≠ [] → q.timerfd_ ≠ .disarmed

section Arming
variable (clock : ℕ → ℤ)

theorem settime_armed (fd : Timerfd) {micros : ℤ} (h : 100 ≤ micros) :
    fd.settime (micros.tdiv kMicroSecondsPerSecond)
      (micros.tmod kMicroSecondsPerSecond * 1000) = .armed := by
  have seconds : micros.tdiv kMicroSecondsPerSecond = micros / kMicroSecondsPerSecond :=
    Int.tdiv_eq_ediv_of_nonneg (by omega)
  have rest : micros.tmod kMicroSecondsPerSecond = micros % kMicroSecondsPerSecond :=
    Int.tmod_eq_emod_of_nonneg (by omega)
  rw [seconds, rest, Timerfd.settime]
  unfold kMicroSecondsPerSecond
  rw [if_neg (by omega), if_neg (by omega)]

theorem resetTimerfd_armed (q : TimerQueue) (expiration : ℤ) :
    (q.resetTimerfd clock expiration).timerfd_ = .armed := by
  simp only [resetTimerfd]
  apply settime_armed
  split_ifs <;> omega

theorem resetTimerfd_waiting (q : TimerQueue) (expiration : ℤ) :
    Waiting (q.resetTimerfd clock expiration) := fun _ => by
  rw [resetTimerfd_armed]
  decide

theorem addTimerInLoop_waiting {q : TimerQueue} (h : Waiting q) (timer : ℕ) :
    Waiting (q.addTimerInLoop clock timer) := by
  unfold addTimerInLoop
  dsimp only
  split_ifs with changed
  · exact resetTimerfd_waiting clock _ _
  · intro _
    apply h
    intro none
    simp [insert, OrderedSet.first?, none] at changed

theorem addTimer_waiting {q q' : TimerQueue} (h : Waiting q) {t : NewTimer}
    (hq : q.addTimer clock t = some q') : Waiting q' := by
  obtain ⟨-, rfl⟩ := guard_met hq
  exact addTimerInLoop_waiting clock (q := q.store _ _) h t.timer

theorem resetOne_waiting (q : TimerQueue) (e : Entry) : Waiting (q.resetOne clock e) := by
  unfold resetOne
  dsimp only
  split
  · rename_i first
    intro waiting
    exact absurd (List.head?_eq_none_iff.mp first) waiting
  · exact resetTimerfd_waiting clock _ _

theorem reset_waiting (q : TimerQueue) {expired : List Entry} (h : expired ≠ []) :
    Waiting (q.reset clock expired) := by
  induction expired using List.reverseRecOn with
  | nil => exact absurd rfl h
  | append_singleton rest e _ =>
    rw [reset, List.foldl_append]
    exact resetOne_waiting clock _ e

end Arming

section Run
variable (clock : ℕ → ℤ)

/-- The operations of the loop thread, and the kernel letting an armed timerfd expire. -/
inductive Action where
  | addTimer (t : NewTimer)
  | expire
  | handleRead (callbacks : List (List NewTimer))

def next (q : TimerQueue) : Action → Option TimerQueue
  | .addTimer t => q.addTimer clock t
  | .expire => if q.timerfd_ = .armed then some { q with timerfd_ := .expired } else none
  | .handleRead callbacks =>
    if q.timerfd_ = .expired then q.handleRead clock callbacks else none

def timerQueue : System TimerQueue Action where
  init q := q = construct
  next := next clock

/-- `handleRead` finds a timer before the reading it takes on entry, or none at all. -/
def Due (q : TimerQueue) : Action → Prop
  | .handleRead _ => q.timers_.elements = [] ∨
      ∃ e ∈ q.timers_.elements, e.timestamp < clock q.readings
  | _ => True

variable {clock}

/-- A `handleRead` that takes something out leaves no timer waiting unarmed. -/
theorem handleRead_waiting {q q' : TimerQueue} {callbacks : List (List NewTimer)}
    (due : Due clock q (.handleRead callbacks)) (h : q.handleRead clock callbacks = some q') :
    Waiting q' := by
  simp only [handleRead, now, getExpired] at h
  obtain ⟨ran, hran, rfl⟩ := Option.map_eq_some_iff.mp h
  rcases due with none | ⟨e, mem, early⟩
  · have nothing : q.timers_.before (Entry.mk (clock q.readings) 0) = [] := by
      simp [OrderedSet.before, none]
    simp only [nothing, runExpired] at hran ⊢
    intro waiting
    refine absurd ?_ waiting
    rw [reset, List.foldl_nil, ← Option.some.inj hran]
    simp [OrderedSet.eraseBefore, none]
  · apply reset_waiting
    exact List.ne_nil_of_mem (OrderedSet.mem_before.mpr ⟨mem, Entry.lt_sentry.mpr early⟩)

/-- A `handleRead` that finds nothing before its reading leaves every timer waiting on a
disarmed timerfd. -/
theorem handleRead_stalls {q : TimerQueue} {callbacks : List (List NewTimer)}
    (unread : q.timerfd_ = .expired) (late : ¬Due clock q (.handleRead callbacks)) :
    ∃ q', q.handleRead clock callbacks = some q' ∧ q'.timers_ = q.timers_ ∧
      q'.timers_.elements ≠ [] ∧ q'.timerfd_ = .disarmed := by
  simp only [Due, not_or, not_exists, not_and] at late
  obtain ⟨waiting, none⟩ := late
  have nothing : q.timers_.before (Entry.mk (clock q.readings) 0) = [] := by
    apply List.eq_nil_iff_forall_not_mem.mpr
    intro e he
    obtain ⟨mem, below⟩ := OrderedSet.mem_before.mp he
    exact none e mem (Entry.lt_sentry.mp below)
  have rest : q.timers_.eraseBefore (Entry.mk (clock q.readings) 0) = q.timers_ := by
    have whole := OrderedSet.before_append_eraseBefore q.timers_ (Entry.mk (clock q.readings) 0)
    rw [nothing, List.nil_append] at whole
    exact OrderedSet.ext whole
  have idle : q.handleRead clock callbacks = some { q with
      timerfd_ := .disarmed
      readings := q.readings + 1 } := by
    simp only [handleRead, now, getExpired, nothing, rest, unread, runExpired]
    rfl
  exact ⟨_, idle, rfl, waiting, rfl⟩

theorem next_waiting {q q' : TimerQueue} {a : Action} (h : Waiting q) (due : Due clock q a)
    (hn : next clock q a = some q') : Waiting q' := by
  cases a with
  | addTimer t => exact addTimer_waiting clock h hn
  | expire =>
    obtain ⟨-, rfl⟩ := guard_met hn
    exact fun _ => by simp
  | handleRead callbacks =>
    simp only [next] at hn
    split_ifs at hn
    exact handleRead_waiting due hn

/-- In every state of every run whose `handleRead` calls find a timer before their
reading, or no timer, a waiting timer has the timerfd armed or its expiration unread. -/
theorem timers_never_stall {q : TimerQueue} (h : (timerQueue clock).Reachable (Due clock) q)
    (waiting : q.timers_.elements ≠ []) : q.timerfd_ = .armed ∨ q.timerfd_ = .expired := by
  have armed : Waiting q :=
    h.invariant (P := Waiting) (fun _ hi => by rw [hi]; exact fun hn => absurd rfl hn)
      fun _ _ _ hq due hn => next_waiting hq due hn
  cases hfd : q.timerfd_ with
  | disarmed => exact absurd hfd (armed waiting)
  | armed => exact .inl rfl
  | expired => exact .inr rfl

instance (q : TimerQueue) (a : Action) : Decidable (Due clock q a) := by
  cases a <;> unfold Due <;> infer_instance

/-- A repeating timer that fires late, and whose callback adds an earlier one. -/
theorem timers_never_stall_repeating :
    ∃ q, (timerQueue fun n => 1000 + 10 * n).Reachable (Due fun n => 1000 + 10 * n) q ∧
      q.timers_.elements ≠ [] ∧ (q.timerfd_ = .armed ∨ q.timerfd_ = .expired) := by
  have run : ((timerQueue fun n => 1000 + 10 * n).execute (Due fun n => 1000 + 10 * n) construct
      [.addTimer ⟨1, 1005, true, 50⟩, .expire, .handleRead [[⟨2, 1002, false, 0⟩]]]).map
      (fun q => q.timers_.elements) = some [Entry.mk 1002 2, Entry.mk 1055 1] := by
    decide +kernel
  obtain ⟨q, reached, timers⟩ := System.Reachable.of_replay rfl run
  have waiting : q.timers_.elements ≠ [] := by
    rw [timers]
    exact List.cons_ne_nil _ _
  exact ⟨q, reached, waiting, timers_never_stall reached waiting⟩

/-- The timerfd fires and the clock reads exactly the timer's instant. -/
theorem timers_stall_on_time :
    ∃ q, (timerQueue fun _ => 1000).Reachable Any q ∧ q.timers_.elements ≠ [] ∧
      q.timerfd_ = .disarmed := by
  have run : ((timerQueue fun _ => 1000).execute Any construct
      [.addTimer ⟨1, 1000, false, 0⟩, .expire, .handleRead []]).map
      (fun q => (q.timers_.elements, q.timerfd_)) = some ([Entry.mk 1000 1], .disarmed) := by
    decide +kernel
  obtain ⟨q, reached, ends⟩ := System.Reachable.of_replay rfl run
  have timers : q.timers_.elements = [Entry.mk 1000 1] := congrArg Prod.fst ends
  refine ⟨q, reached, ?_, congrArg Prod.snd ends⟩
  rw [timers]
  exact List.cons_ne_nil _ _

end Run

end TimerQueue

end TinyNetwork

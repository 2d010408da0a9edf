import TinyNetwork.LoopProgress
import TinyNetwork.PendingWork
import TinyNetwork.TimerHistory

/-! A `TimerQueue` on its loop: `addTimer` from any thread, the functor that brings the timer to
the loop thread, `handleRead` among the events of a turn, and `~TimerQueue` after the loop. A
`Timer` is with the thread that made it, then with its functor, and in the queue from
`addTimerInLoop` on; until then nobody else knows its address. -/
namespace TinyNetwork
open Transition PendingWork

/-- `addTimerInLoop` bound to a timer, or any other functor. -/
inductive TimerFunctor where
  | addTimerInLoop (timer : NewTimer)
  | other

namespace TimerFunctor

def ofCreated (created : Option NewTimer) : TimerFunctor := created.elim .other .addTimerInLoop

def weight (p : ℕ) : TimerFunctor → ℕ
  | .addTimerInLoop timer => if timer.timer = p then 1 else 0
  | .other => 0

end TimerFunctor

namespace TimerSteps

def delete (s : TimerSteps) (e : Entry) : TimerSteps :=
  { s.note e.timer fun l => { l with deletes := l.deletes + 1 } with
    queue := (s.queue.store e.timer none).record (.delete e.timer) }

def destroy (s : TimerSteps) : TimerSteps := s.queue.timers_.elements.foldl delete s

end TimerSteps

/-- `created` has the timer of an `addTimer` past its `new` and short of the queue,
`timerfdActive` says whether the channel of the timerfd is still among the active ones, and
`made` lists the addresses `new` has returned. -/
structure LoopTimers (Θ : Type*) where
  loop : EventLoop Θ TimerFunctor
  timers : TimerSteps
  created : Θ → Option NewTimer
  timerfdActive : Bool
  destroyed : Bool
  made : List ℕ

namespace TimerPhase

def rests : TimerPhase → Bool
  | .idle => true
  | _ => false

end TimerPhase

namespace LoopTimers
open EventLoop

variable {Θ : Type*}

def construct : LoopTimers Θ where
  loop := EventLoop.construct
  timers := TimerSteps.resting TimerQueue.construct
  created := fun _ => none
  timerfdActive := false
  destroyed := false
  made := []

def Free (s : LoopTimers Θ) : Prop := s.timers.rearm = none ∧ s.timers.phase.rests

def InUser (s : LoopTimers Θ) : Prop := s.timers.rearm = none ∧ s.timers.phase.accepts

instance (s : LoopTimers Θ) : Decidable s.Free := inferInstanceAs (Decidable (_ ∧ _))

instance (s : LoopTimers Θ) : Decidable s.InUser := inferInstanceAs (Decidable (_ ∧ _))

inductive Action (Θ : Type*) where
  | addTimer (t : Θ) (timer : NewTimer)
  | queueInLoop (t : Θ)
  | poll (wakeup timerfd : Bool)
  | loop (a : EventLoop.Action Θ TimerFunctor)
  | expire
  | handleRead
  | proceed
  | destroy

variable [DecidableEq Θ] (loopThread : Θ)

def Ready (s : LoopTimers Θ) : EventLoop.Action Θ TimerFunctor → Prop
  | .poll _ => False
  | .queueInLoop _ _ => False
  | .quit t => (s.created t).isNone ∧ (t = loopThread → s.InUser)
  | .queueCheck _ => True
  | .queueWakeup _ => True
  | .quitCheck _ => True
  | .quitWakeup _ => True
  | .callPending => s.Free ∧ s.timerfdActive = false
  | _ => s.Free

instance (s : LoopTimers Θ) : (a : EventLoop.Action Θ TimerFunctor) →
    Decidable (s.Ready loopThread a)
  | .poll _ => inferInstanceAs (Decidable False)
  | .queueInLoop _ _ => inferInstanceAs (Decidable False)
  | .quit t => inferInstanceAs (Decidable ((s.created t).isNone ∧ (t = loopThread → s.InUser)))
  | .queueCheck _ => inferInstanceAs (Decidable True)
  | .queueWakeup _ => inferInstanceAs (Decidable True)
  | .quitCheck _ => inferInstanceAs (Decidable True)
  | .quitWakeup _ => inferInstanceAs (Decidable True)
  | .callPending => inferInstanceAs (Decidable (s.Free ∧ s.timerfdActive = false))
  | .enter => inferInstanceAs (Decidable s.Free)
  | .reset => inferInstanceAs (Decidable s.Free)
  | .test => inferInstanceAs (Decidable s.Free)
  | .handleRead => inferInstanceAs (Decidable s.Free)
  | .swap => inferInstanceAs (Decidable s.Free)
  | .runFunctor => inferInstanceAs (Decidable s.Free)
  | .endPending => inferInstanceAs (Decidable s.Free)

/-- What a step of the loop that leaves it at `l` does with the timers: a functor that brings
one inserts it. -/
def follow (s : LoopTimers Θ) (l : EventLoop Θ TimerFunctor) :
    EventLoop.Action Θ TimerFunctor → LoopTimers Θ
  | .runFunctor => { s with
      loop := l
      timers := match s.loop.functors with
        | .addTimerInLoop timer :: _ => s.timers.addTimer timer
        | _ => s.timers }
  | _ => { s with loop := l }

variable [Fintype Θ] (clock : ℕ → ℤ)

def inFlight (s : LoopTimers Θ) (p : ℕ) : ℕ :=
  ∑ t, (TimerFunctor.ofCreated (s.created t)).weight p +
    load (TimerFunctor.weight p) (s.loop.functors ++ s.loop.pendingFunctors_)

def Unused (s : LoopTimers Θ) (p : ℕ) : Prop :=
  p ≠ 0 ∧ (s.timers.queue.heap p).isNone ∧ s.inFlight p = 0

instance (s : LoopTimers Θ) (p : ℕ) : Decidable (s.Unused p) := inferInstanceAs (Decidable (_ ∧ _))

def MayAdd (s : LoopTimers Θ) (t : Θ) : Prop :=
  s.destroyed = false ∧ (s.created t).isNone ∧ s.loop.pc t = .idle ∧
    (t = loopThread → s.InUser ∧ (EventLoop.InUser s.loop ∨ s.loop.loopPc = .outside))

instance (s : LoopTimers Θ) (t : Θ) : Decidable (s.MayAdd loopThread t) :=
  inferInstanceAs (Decidable (_ ∧ _))

/-- In the loop thread `runInLoop` goes on to `addTimerInLoop`; elsewhere `queueInLoop` comes
next. The queue is destroyed behind the loop, with no thread inside `addTimer`. -/
def next (s : LoopTimers Θ) : Action Θ → Option (LoopTimers Θ)
  | .addTimer t timer =>
    if s.MayAdd loopThread t ∧ s.Unused timer.timer then
      some (if t = loopThread then
        { s with timers := s.timers.addTimer timer, made := s.made ++ [timer.timer] }
      else { s with
        created := Function.update s.created t (some timer)
        made := s.made ++ [timer.timer] })
    else none
  | .queueInLoop t =>
    if t = loopThread → s.InUser then
      (EventLoop.next loopThread s.loop (.queueInLoop t (.ofCreated (s.created t)))).map fun l =>
        { s with loop := l, created := Function.update s.created t none }
    else none
  | .poll wakeup timerfd =>
    if s.Free ∧ (timerfd = true → s.timers.queue.timerfd_ = .expired ∧ s.destroyed = false) then
      (EventLoop.next loopThread s.loop (.poll wakeup)).map fun l =>
        { s with loop := l, timerfdActive := timerfd }
    else none
  | .loop a =>
    if s.Ready loopThread a then
      (EventLoop.next loopThread s.loop a).map fun l => s.follow l a
    else none
  | .expire =>
    if s.destroyed = false then
      (TimerSteps.next clock s.timers .expire).map fun q => { s with timers := q }
    else none
  | .handleRead =>
    if At loopThread s.loop .handling ∧ s.timerfdActive = true ∧ s.destroyed = false then
      (TimerSteps.next clock s.timers .handleRead).map fun q =>
        { s with timers := q, timerfdActive := false }
    else none
  | .proceed =>
    if s.loop.pc loopThread = .idle ∧ s.destroyed = false then
      (TimerSteps.next clock s.timers .proceed).map fun q => { s with timers := q }
    else none
  | .destroy =>
    if At loopThread s.loop .returned ∧ s.Free ∧ s.destroyed = false ∧
        ∀ t, (s.created t).isNone then
      some { s with timers := s.timers.destroy, destroyed := true }
    else none

def loopTimers : System (LoopTimers Θ) (Action Θ) where
  init s := s = construct
  next := next loopThread clock

end LoopTimers

namespace TimerSteps
open TimerQueue

variable {s t : TimerSteps} {clock : ℕ → ℤ}

theorem note_length (s : TimerSteps) (timer : ℕ) (f : TimerLife → TimerLife) (p : ℕ) :
    ((s.note timer f).lives p).length = (s.lives p).length := by
  by_cases same : p = timer
  · subst same
    simp [note]
  · simp [note, Function.update_of_ne same]

structure Bringing (s t : TimerSteps) : Prop where
  lives : ∀ p, (t.lives p).length = (s.lives p).length
  heap : ∀ p, s.queue.heap p = none → t.queue.heap p = none

theorem turn_brings {e : Entry} {todo : List Entry} (h : Historic s)
    (phase : s.phase = .resetting (e :: todo)) : Bringing s (s.turn clock e todo) := by
  obtain ⟨⟨timer, -, -, there, -⟩, -⟩ := h.turned phase
  have stored : ∀ (q : TimerQueue) (t : Option Timer), q.heap = s.queue.heap →
      ∀ p, s.queue.heap p = none → (q.store e.timer t).heap p = none := by
    intro q t same p free
    have other : p ≠ e.timer := by
      rintro rfl
      rw [there] at free
      cases free
    rw [heap_store_other other, same, free]
  by_cases repeats : (s.queue.deref e.timer).repeat_ = true
  · rw [turn_repeat repeats]
    exact ⟨fun _ => rfl, stored _ _ rfl⟩
  · rw [turn_delete repeats]
    exact ⟨note_length s e.timer _, stored _ _ rfl⟩

theorem proceed_brings (h : Historic s) (hn : s.proceed clock = some t) : Bringing s t := by
  unfold TimerSteps.proceed at hn
  split at hn
  case h_1 => cases hn
  case h_2 =>
    obtain rfl := Option.some.inj hn
    exact ⟨note_length s _ _, fun _ => id⟩
  case h_5 phase =>
    obtain rfl := Option.some.inj hn
    exact turn_brings h phase
  case h_7 =>
    obtain rfl := Option.some.inj hn
    exact ⟨fun _ => rfl, fun p free => (congrFun (rearm_still clock s.queue).1 p).trans free⟩
  all_goals
    obtain rfl := Option.some.inj hn
    exact ⟨fun _ => rfl, fun _ => id⟩

theorem next_brings {a : TimerSteps.Action} (h : Historic s) (hn : next clock s a = some t)
    (old : ∀ timer, a ≠ .addTimer timer) : Bringing s t := by
  cases a with
  | addTimer timer => exact absurd rfl (old timer)
  | expire =>
    obtain ⟨-, rfl⟩ := guard_met hn
    exact ⟨fun _ => rfl, fun _ => id⟩
  | handleRead =>
    simp only [next] at hn
    split at hn
    · obtain rfl := Option.some.inj hn
      exact ⟨fun _ => rfl, fun _ => id⟩
    · cases hn
  | proceed =>
    simp only [next] at hn
    split at hn
    · exact proceed_brings h hn
    · obtain rfl := Option.some.inj hn
      exact ⟨fun _ => rfl, fun _ => id⟩

theorem addTimer_lives (s : TimerSteps) (timer : NewTimer) (p : ℕ) :
    ((s.addTimer timer).lives p).length =
      (s.lives p).length + if timer.timer = p then 1 else 0 := by
  by_cases same : p = timer.timer
  · subst same
    simp [addTimer]
  · simp [addTimer, Function.update_of_ne same, Ne.symm same]

theorem addTimer_heap (s : TimerSteps) (timer : NewTimer) {p : ℕ} (other : timer.timer ≠ p) :
    (s.addTimer timer).queue.heap p = s.queue.heap p :=
  heap_store_other (Ne.symm other)

section Destruction

theorem destroy_fold (es : List Entry) (distinct : (es.map Entry.timer).Nodup) (s : TimerSteps)
    (p : ℕ) :
    (es.foldl delete s).queue.heap p = (if p ∈ es.map Entry.timer then none
      else s.queue.heap p) ∧
    (es.foldl delete s).lives p = if p ∈ es.map Entry.timer then
      (s.lives p).modifyHead fun l => { l with deletes := l.deletes + 1 } else s.lives p := by
  induction es generalizing s with
  | nil => exact ⟨rfl, rfl⟩
  | cons e es ih =>
    obtain ⟨alone, rest⟩ := List.nodup_cons.mp distinct
    obtain ⟨heap, lives⟩ := ih rest (s.delete e)
    rw [List.foldl_cons, heap, lives]
    by_cases same : p = e.timer
    · subst same
      have here : e.timer ∈ (e :: es).map Entry.timer := List.mem_cons_self
      rw [if_neg alone, if_neg alone, if_pos here, if_pos here]
      exact ⟨heap_store_self (q := s.queue), Function.update_self ..⟩
    · have heap : (s.delete e).queue.heap p = s.queue.heap p :=
        heap_store_other (q := s.queue) same
      have lives : (s.delete e).lives p = s.lives p := Function.update_of_ne same _ _
      rw [heap, lives, List.map_cons]
      simp only [List.mem_cons, same, false_or, and_self]

/-- `~TimerQueue` deletes every timer that is left, and each of them once. -/
theorem destroy_deletes (h : Historic s) (rests : s.phase.rests) (p : ℕ) :
    s.destroy.queue.heap p = none ∧ (s.destroy.lives p).length = (s.lives p).length ∧
      ∀ l ∈ s.destroy.lives p, l.deletes = 1 := by
  have idle : s.phase = .idle := by
    cases phase : s.phase <;> simp_all [TimerPhase.rests]
  have owners : s.owners = s.queue.timers_.elements.map Entry.timer := by
    rw [TimerSteps.owners, idle]
    exact congrArg _ (List.append_nil _)
  obtain ⟨heap, lives⟩ := destroy_fold s.queue.timers_.elements (owners ▸ h.owned.distinct) s p
  rw [← owners] at heap lives
  have lived := h.lived p
  unfold destroy
  rw [heap, lives]
  by_cases mem : p ∈ s.owners
  · rw [if_pos mem, if_pos mem]
    obtain ⟨t, there⟩ := Option.isSome_iff_exists.mp ((h.owned.live p).mp mem)
    rw [there] at lived
    obtain ⟨l, older, shape, current, past⟩ := lived
    rw [shape]
    refine ⟨rfl, rfl, List.forall_mem_cons.mpr ⟨?_, fun l hl => (past l hl).deleted⟩⟩
    exact congrArg (· + 1) current.kept
  · have free : s.queue.heap p = none := by
      rw [← Option.not_isSome_iff_eq_none, ← h.owned.live p]
      exact mem
    rw [free] at lived
    rw [if_neg mem, if_neg mem]
    exact ⟨free, rfl, fun l hl => (lived l hl).deleted⟩

end Destruction

end TimerSteps

namespace LoopTimers
open EventLoop TimerFunctor

variable {Θ : Type*} [DecidableEq Θ] {loopThread : Θ}

section Queue
variable {φ : Type*} {l m : EventLoop Θ φ}

theorem functors_moved {a : EventLoop.Action Θ φ} (batch : l.loopPc ≠ .running → l.functors = [])
    (hn : EventLoop.next loopThread l a = some m) :
    FunctorHistory.Ordered
      ((⟨l, [], l.functors ++ l.pendingFunctors_, fun _ => 0, [], []⟩ :
        FunctorHistory Θ φ).observe m a) := by
  have start : FunctorHistory.Ordered (⟨l, [], l.functors ++ l.pendingFunctors_, fun _ => 0, [],
      []⟩ : FunctorHistory Θ φ) := ⟨rfl, batch⟩
  exact FunctorHistory.next_ordered start (congrArg (Option.map _) hn)

theorem queueInLoop_moves {t : Θ} {f : φ} (batch : l.loopPc ≠ .running → l.functors = [])
    (hn : EventLoop.next loopThread l (.queueInLoop t f) = some m) :
    m.functors ++ m.pendingFunctors_ = l.functors ++ l.pendingFunctors_ ++ [f] := by
  simpa [FunctorHistory.observe] using (functors_moved batch hn).sequence

theorem runFunctor_moves
    (hn : EventLoop.next loopThread l .runFunctor = some m) :
    ∃ f, l.functors = f :: m.functors ∧ m.pendingFunctors_ = l.pendingFunctors_ := by
  obtain ⟨ready, rfl⟩ := guard_met hn
  obtain ⟨f, rest, shape⟩ := List.exists_cons_of_ne_nil ready.2
  exact ⟨f, by simp [shape], rfl⟩

theorem others_keep {a : EventLoop.Action Θ φ} (batch : l.loopPc ≠ .running → l.functors = [])
    (hn : EventLoop.next loopThread l a = some m) (insert : ∀ t f, a ≠ .queueInLoop t f)
    (run : a ≠ .runFunctor) :
    m.functors ++ m.pendingFunctors_ = l.functors ++ l.pendingFunctors_ := by
  have sequence := (functors_moved batch hn).sequence
  cases a with
  | queueInLoop t f => exact absurd rfl (insert t f)
  | runFunctor => exact absurd rfl run
  | _ => simpa [FunctorHistory.observe] using sequence

theorem call_idle {a : EventLoop.Action Θ φ} {t : Θ} (idle : l.pc t = .idle)
    (hn : EventLoop.next loopThread l a = some m) (queue : ∀ f, a ≠ .queueInLoop t f)
    (quit : a ≠ .quit t) : m.pc t = .idle := by
  have other : ∀ {u : Θ} {p : CallPc}, l.pc u ≠ .idle → (l.goto u p).pc t = .idle :=
    fun busy => FunctorHistory.goto_idle busy idle
  cases a with
  | queueInLoop u f =>
    obtain ⟨-, rfl⟩ := guard_met hn
    have apart : t ≠ u := by
      rintro rfl
      exact queue f rfl
    exact (goto_other l apart _).trans idle
  | quit u =>
    obtain ⟨-, rfl⟩ := guard_met hn
    have apart : t ≠ u := by
      rintro rfl
      exact quit rfl
    exact (goto_other l apart _).trans idle
  | queueCheck u =>
    obtain ⟨at_, rfl⟩ := guard_met hn
    exact other (by simp [at_])
  | queueWakeup u =>
    obtain ⟨at_, rfl⟩ := guard_met hn
    exact other (p := .idle) (by simp [at_])
  | quitCheck u =>
    obtain ⟨at_, rfl⟩ := guard_met hn
    split_ifs
    · exact other (by simp [at_])
    · exact other (p := .idle) (by simp [at_])
  | quitWakeup u =>
    obtain ⟨at_, rfl⟩ := guard_met hn
    exact other (p := .idle) (by simp [at_])
  | test =>
    obtain ⟨-, rfl⟩ := guard_met hn
    split_ifs <;> exact idle
  | _ =>
    obtain ⟨-, rfl⟩ := guard_met hn
    exact idle

theorem place_stays {a : EventLoop.Action Θ φ}
    (place : l.loopPc = .handling ∨ l.loopPc = .returned)
    (hn : EventLoop.next loopThread l a = some m)
    (events : a = .callPending → l.loopPc ≠ .handling) : m.loopPc = l.loopPc := by
  have away : ∀ {p : LoopPc}, p ≠ .handling → p ≠ .returned → l.loopPc ≠ p := by
    rintro p handling returned rfl
    exact place.elim handling returned
  cases a with
  | callPending => exact absurd (guard_met hn).1.1.1 (events rfl)
  | quitCheck t =>
    obtain ⟨-, rfl⟩ := guard_met hn
    split_ifs <;> rfl
  | enter => exact absurd (guard_met hn).1.1 (away nofun nofun)
  | reset => exact absurd (guard_met hn).1.1 (away nofun nofun)
  | test => exact absurd (guard_met hn).1.1 (away nofun nofun)
  | poll wakeup => exact absurd (guard_met hn).1.1.1 (away nofun nofun)
  | swap => exact absurd (guard_met hn).1.1 (away nofun nofun)
  | endPending => exact absurd (guard_met hn).1.1.1 (away nofun nofun)
  | _ =>
    obtain ⟨-, rfl⟩ := guard_met hn
    rfl

end Queue

variable [Fintype Θ] {clock : ℕ → ℤ} {s t : LoopTimers Θ} {p : ℕ}

section Flight

omit [DecidableEq Θ] in
theorem inFlight_loop (s : LoopTimers Θ) (l : EventLoop Θ TimerFunctor) (p : ℕ) :
    ({ s with loop := l } : LoopTimers Θ).inFlight p +
        load (weight p) (s.loop.functors ++ s.loop.pendingFunctors_) =
      s.inFlight p + load (weight p) (l.functors ++ l.pendingFunctors_) := by
  simp only [inFlight]
  omega

theorem inFlight_created (s : LoopTimers Θ) (t : Θ) (o : Option NewTimer) (p : ℕ) :
    ({ s with created := Function.update s.created t o } : LoopTimers Θ).inFlight p +
        weight p (ofCreated (s.created t)) =
      s.inFlight p + weight p (ofCreated o) := by
  have moved := sum_update (fun o => weight p (ofCreated o)) s.created t o
  simp only [inFlight]
  omega

end Flight

section Runs

/-- Every pointer to a timer is accounted for: on its way to the loop, in the queue, or given
back. -/
structure Conserved (loopThread : Θ) (clock : ℕ → ℤ) (s : LoopTimers Θ) : Prop where
  loop : (eventLoop loopThread).Reachable Any s.loop
  steps : s.destroyed = false → (TimerSteps.timerSteps clock).Reachable Any s.timers
  gone : s.destroyed = true → s.loop.loopPc = .returned ∧ (∀ u, (s.created u).isNone) ∧
    ∀ p, s.timers.queue.heap p = none ∧ ∀ l ∈ s.timers.lives p, l.deletes = 1
  apart : ∀ p, s.inFlight p + (s.timers.queue.heap p).toList.length ≤ 1
  made : ∀ p, s.made.count p = (s.timers.lives p).length + s.inFlight p
  nonnull : s.inFlight 0 = 0
  calling : ∀ t, (s.created t).isSome → s.loop.pc t = .idle ∧ t ≠ loopThread
  active : s.timerfdActive = true → s.loop.loopPc = .handling

theorem Conserved.batch (h : Conserved loopThread clock s) (away : s.loop.loopPc ≠ .running) :
    s.loop.functors = [] := LoopProgress.batch_running h.loop away

theorem Conserved.historic (h : Conserved loopThread clock s) (alive : s.destroyed = false) :
    TimerSteps.Historic s.timers := TimerSteps.historic (h.steps alive)

theorem construct_conserved : Conserved loopThread clock (construct : LoopTimers Θ) := by
  have none_ : ∀ p, (construct : LoopTimers Θ).inFlight p = 0 := fun p => by
    simp [inFlight, construct, ofCreated, weight, EventLoop.construct]
  refine ⟨.initial rfl, fun _ => .initial rfl, fun destroyed => ?_, fun p => ?_, fun p => ?_,
    none_ 0, fun t some_ => ?_, fun active => ?_⟩
  · cases destroyed
  · rw [none_]
    exact Nat.zero_le 1
  · rw [none_]
    rfl
  · cases some_
  · cases active

theorem Conserved.turn {a : EventLoop.Action Θ TimerFunctor} (h : Conserved loopThread clock s)
    (hn : EventLoop.next loopThread s.loop a = some t.loop) (timers : t.timers = s.timers)
    (destroyed : t.destroyed = s.destroyed) (made : t.made = s.made)
    (flight : ∀ p, t.inFlight p = s.inFlight p)
    (fewer : ∀ u, (s.created u).isNone → (t.created u).isNone)
    (calling : ∀ u, (t.created u).isSome → t.loop.pc u = .idle ∧ u ≠ loopThread)
    (active : t.timerfdActive = true → t.loop.loopPc = .handling) :
    Conserved loopThread clock t where
  loop := h.loop.path (.single trivial hn)
  steps alive := timers ▸ h.steps (destroyed ▸ alive)
  gone dead := by
    obtain ⟨back, none_, freed⟩ := h.gone (destroyed ▸ dead)
    refine ⟨(place_stays (.inr back) hn fun _ => ?_).trans back, fun u => fewer u (none_ u),
      fun p => timers ▸ freed p⟩
    rw [back]
    nofun
  apart p := by
    rw [flight, timers]
    exact h.apart p
  made p := by
    rw [made, flight, timers]
    exact h.made p
  nonnull := (flight 0).trans h.nonnull
  calling := calling
  active := active

theorem Conserved.queueInLoop {u : Θ} {l : EventLoop Θ TimerFunctor}
    (h : Conserved loopThread clock s)
    (hn : EventLoop.next loopThread s.loop (.queueInLoop u (ofCreated (s.created u))) = some l) :
    Conserved loopThread clock
      { s with loop := l, created := Function.update s.created u none } := by
  have moved := queueInLoop_moves h.batch hn
  refine h.turn hn rfl rfl rfl (fun p => ?_) (fun v none_ => ?_) (fun v some_ => ?_)
    fun active => ?_
  · have first := inFlight_created s u none p
    have second := inFlight_loop { s with created := Function.update s.created u none } l p
    have gone : weight p (ofCreated none) = 0 := rfl
    have joined : load (weight p) (l.functors ++ l.pendingFunctors_) =
        load (weight p) (s.loop.functors ++ s.loop.pendingFunctors_) +
          weight p (ofCreated (s.created u)) := by
      rw [moved, load_append, load_cons, load_nil, Nat.add_zero]
    dsimp only at second
    omega
  · by_cases same : v = u
    · subst same
      simp
    · simpa [Function.update_of_ne same] using none_
  · by_cases same : v = u
    · subst same
      simp at some_
    · have there : (s.created v).isSome := by simpa [Function.update_of_ne same] using some_
      obtain ⟨idle, other⟩ := h.calling v there
      refine ⟨call_idle idle hn (fun f queues => ?_) (by simp), other⟩
      cases queues
      exact same rfl
  · have place := h.active active
    exact (place_stays (.inl place) hn nofun).trans place

theorem Conserved.poll {wakeup timerfd : Bool} {l : EventLoop Θ TimerFunctor}
    (h : Conserved loopThread clock s)
    (hn : EventLoop.next loopThread s.loop (.poll wakeup) = some l) :
    Conserved loopThread clock { s with loop := l, timerfdActive := timerfd } := by
  have moved := others_keep h.batch hn nofun nofun
  refine h.turn hn rfl rfl rfl (fun p => ?_) (fun _ => id) (fun v some_ => ?_) fun _ => ?_
  · have second := inFlight_loop s l p
    rw [moved] at second
    exact Nat.add_right_cancel second
  · obtain ⟨idle, other⟩ := h.calling v some_
    exact ⟨call_idle idle hn nofun nofun, other⟩
  · obtain ⟨-, rfl⟩ := guard_met hn
    rfl

theorem Conserved.others {a : EventLoop.Action Θ TimerFunctor} {l : EventLoop Θ TimerFunctor}
    (h : Conserved loopThread clock s) (ready : s.Ready loopThread a)
    (hn : EventLoop.next loopThread s.loop a = some l) (run : a ≠ .runFunctor) :
    Conserved loopThread clock { s with loop := l } := by
  have insert : ∀ t f, a ≠ .queueInLoop t f := by
    rintro t f rfl
    exact ready
  refine h.turn hn rfl rfl rfl (fun p => ?_) (fun _ => id) (fun v some_ => ?_) fun active => ?_
  · have second := inFlight_loop s l p
    rw [others_keep h.batch hn insert run] at second
    exact Nat.add_right_cancel second
  · obtain ⟨idle, other⟩ := h.calling v some_
    refine ⟨call_idle idle hn (insert v) ?_, other⟩
    rintro rfl
    simp [Ready] at ready
    simp [ready.1] at some_
  · have place := h.active active
    refine (place_stays (.inl place) hn ?_).trans place
    rintro rfl
    exact absurd (active.symm.trans ready.2) nofun

theorem Conserved.insert {timer : NewTimer} (h : Conserved loopThread clock s)
    (alive : s.destroyed = false) (user : s.InUser) (nonnull : timer.timer ≠ 0)
    (empty : s.timers.queue.heap timer.timer = none)
    (loop : (eventLoop loopThread).Reachable Any t.loop)
    (timers : t.timers = s.timers.addTimer timer) (destroyed : t.destroyed = s.destroyed)
    (taken : t.inFlight timer.timer = 0) (fewer : ∀ p, t.inFlight p ≤ s.inFlight p)
    (made : ∀ p, t.made.count p + s.inFlight p =
      s.made.count p + t.inFlight p + if timer.timer = p then 1 else 0)
    (calling : ∀ u, (t.created u).isSome → t.loop.pc u = .idle ∧ u ≠ loopThread)
    (active : t.timerfdActive = true → t.loop.loopPc = .handling) :
    Conserved loopThread clock t where
  loop := loop
  steps _ := by
    have added : TimerSteps.next clock s.timers (.addTimer timer) =
        some (s.timers.addTimer timer) :=
      if_pos ⟨user.1, user.2, nonnull, Option.isNone_iff_eq_none.mpr empty⟩
    exact timers ▸ (h.steps alive).path (.single (a := .addTimer timer) trivial added)
  gone dead := by
    rw [destroyed, alive] at dead
    cases dead
  apart p := by
    rw [timers]
    by_cases same : timer.timer = p
    · subst same
      have there : (s.timers.addTimer timer).queue.heap timer.timer =
          some (Timer.construct timer.when timer.interval) := TimerSteps.heap_store_self
      rw [taken, there]
      rfl
    · rw [TimerSteps.addTimer_heap _ _ same]
      exact (Nat.add_le_add_right (fewer p) _).trans (h.apart p)
  made p := by
    have moved := made p
    rw [h.made p] at moved
    rw [timers, TimerSteps.addTimer_lives]
    omega
  nonnull := Nat.le_zero.mp ((fewer 0).trans h.nonnull.le)
  calling := calling
  active := active

omit [DecidableEq Θ] [Fintype Θ] in
theorem Free.user (free : s.Free) : s.InUser := by
  refine ⟨free.1, ?_⟩
  have rests := free.2
  cases phase : s.timers.phase <;> simp_all [TimerPhase.rests, TimerPhase.accepts]

theorem Conserved.runFunctor {l : EventLoop Θ TimerFunctor} (h : Conserved loopThread clock s)
    (free : s.Free) (hn : EventLoop.next loopThread s.loop .runFunctor = some l) :
    Conserved loopThread clock (s.follow l .runFunctor) := by
  obtain ⟨f, batch, queue⟩ := runFunctor_moves hn
  have flight : ∀ p, ({ s with loop := l } : LoopTimers Θ).inFlight p + weight p f =
      s.inFlight p := fun p => by
    have second := inFlight_loop s l p
    rw [batch, queue, List.cons_append, load_cons] at second
    omega
  have running : s.loop.loopPc = .running := (guard_met hn).1.1.1
  have calling : ∀ u, (s.created u).isSome → l.pc u = .idle ∧ u ≠ loopThread := fun u some_ =>
    ⟨call_idle (h.calling u some_).1 hn nofun nofun, (h.calling u some_).2⟩
  have inactive : s.timerfdActive = true → l.loopPc = .handling := fun active => by
    have place := h.active active
    rw [running] at place
    cases place
  cases f with
  | other =>
    have same : s.follow l .runFunctor = { s with loop := l } := by simp [follow, batch]
    rw [same]
    exact h.turn hn rfl rfl rfl flight (fun _ => id) calling inactive
  | addTimerInLoop timer =>
    have same : s.follow l .runFunctor =
        { s with loop := l, timers := s.timers.addTimer timer } := by simp [follow, batch]
    have alive : s.destroyed = false := by
      by_contra dead
      have back := (h.gone (Bool.not_eq_false _ ▸ dead)).1
      rw [running] at back
      cases back
    have own := flight timer.timer
    have apart := h.apart timer.timer
    rw [weight, if_pos rfl] at own
    have empty : s.timers.queue.heap timer.timer = none := by
      cases there : s.timers.queue.heap timer.timer with
      | none => rfl
      | some t =>
        rw [there, Option.toList_some, List.length_singleton] at apart
        omega
    have nonnull : timer.timer ≠ 0 := fun null => by
      rw [null, h.nonnull] at own
      omega
    have loop : (eventLoop loopThread).Reachable Any l :=
      h.loop.path (.single (a := .runFunctor) trivial hn)
    rw [same]
    refine h.insert alive free.user nonnull empty loop rfl rfl ?_ (fun p => ?_) (fun p => ?_)
      calling inactive
    · change ({ s with loop := l } : LoopTimers Θ).inFlight timer.timer = 0
      omega
    · exact Nat.le.intro (flight p)
    · have moved := flight p
      change s.made.count p + s.inFlight p =
        s.made.count p + ({ s with loop := l } : LoopTimers Θ).inFlight p + _
      unfold weight at moved
      dsimp only at moved
      omega

theorem Conserved.addHere {timer : NewTimer} (h : Conserved loopThread clock s)
    (may : s.MayAdd loopThread loopThread) (unused : s.Unused timer.timer) :
    Conserved loopThread clock
      { s with timers := s.timers.addTimer timer, made := s.made ++ [timer.timer] } := by
  obtain ⟨alive, -, -, here⟩ := may
  obtain ⟨nonnull, empty, absent⟩ := unused
  refine h.insert alive (here rfl).1 nonnull (Option.isNone_iff_eq_none.mp empty) h.loop rfl rfl
    absent (fun _ => le_refl _) (fun p => ?_) h.calling h.active
  change (s.made ++ [timer.timer]).count p + s.inFlight p = s.made.count p + s.inFlight p + _
  rw [List.count_append, List.count_singleton]
  simp only [beq_iff_eq]
  omega

theorem Conserved.create {u : Θ} {timer : NewTimer} (h : Conserved loopThread clock s)
    (may : s.MayAdd loopThread u) (other : u ≠ loopThread) (unused : s.Unused timer.timer) :
    Conserved loopThread clock { s with
      created := Function.update s.created u (some timer)
      made := s.made ++ [timer.timer] } := by
  obtain ⟨alive, none_, idle, -⟩ := may
  obtain ⟨nonnull, empty, absent⟩ := unused
  have flight : ∀ p, ({ s with created := Function.update s.created u (some timer) } :
      LoopTimers Θ).inFlight p = s.inFlight p + if timer.timer = p then 1 else 0 := fun p => by
    have moved := inFlight_created s u (some timer) p
    rw [Option.isNone_iff_eq_none.mp none_] at moved
    exact moved
  refine ⟨h.loop, h.steps, fun dead => ?_, fun p => ?_, fun p => ?_, ?_, fun v some_ => ?_,
    h.active⟩
  · exact absurd (alive.symm.trans dead) nofun
  · refine (Nat.add_le_add_right (flight p).le _).trans ?_
    by_cases same : timer.timer = p
    · subst same
      rw [if_pos rfl, absent, Option.isNone_iff_eq_none.mp empty]
      rfl
    · rw [if_neg same]
      exact h.apart p
  · change (s.made ++ [timer.timer]).count p = (s.timers.lives p).length +
      ({ s with created := Function.update s.created u (some timer) } : LoopTimers Θ).inFlight p
    rw [flight, List.count_append, List.count_singleton, h.made p]
    simp only [beq_iff_eq]
    omega
  · refine (flight 0).trans ?_
    rw [h.nonnull, if_neg nonnull]
  · by_cases same : v = u
    · subst same
      exact ⟨idle, other⟩
    · exact h.calling v (by simpa [Function.update_of_ne same] using some_)

theorem Conserved.work {a : TimerSteps.Action} {q : TimerSteps} {active : Bool}
    (h : Conserved loopThread clock s) (alive : s.destroyed = false)
    (hn : TimerSteps.next clock s.timers a = some q) (old : ∀ timer, a ≠ .addTimer timer)
    (fewer : active = true → s.timerfdActive = true) :
    Conserved loopThread clock { s with timers := q, timerfdActive := active } := by
  obtain ⟨lives, heap⟩ := TimerSteps.next_brings (h.historic alive) hn old
  refine ⟨h.loop, fun _ => (h.steps alive).path (.single trivial hn), fun dead => ?_, fun p => ?_,
    fun p => ?_, h.nonnull, h.calling, fun on => h.active (fewer on)⟩
  · rw [alive] at dead
    cases dead
  · have apart := h.apart p
    change s.inFlight p + (q.queue.heap p).toList.length ≤ 1
    cases there : s.timers.queue.heap p with
    | none =>
      rw [there] at apart
      rw [heap p there]
      exact apart
    | some t =>
      rw [there, Option.toList_some, List.length_singleton] at apart
      have most : (q.queue.heap p).toList.length ≤ 1 := by cases q.queue.heap p <;> simp
      omega
  · change s.made.count p = (q.lives p).length + s.inFlight p
    rw [lives p, h.made p]

theorem Conserved.destroy (h : Conserved loopThread clock s) (alive : s.destroyed = false)
    (back : At loopThread s.loop .returned) (free : s.Free) (none_ : ∀ u, (s.created u).isNone) :
    Conserved loopThread clock { s with timers := s.timers.destroy, destroyed := true } := by
  have freed := TimerSteps.destroy_deletes (h.historic alive) free.2
  refine ⟨h.loop, fun not => ?_,
    fun _ => ⟨back.1, none_, fun p => ⟨(freed p).1, (freed p).2.2⟩⟩, fun p => ?_, fun p => ?_,
    h.nonnull, h.calling, h.active⟩
  · cases not
  · change s.inFlight p + (s.timers.destroy.queue.heap p).toList.length ≤ 1
    rw [(freed p).1]
    exact (Nat.le_add_right _ _).trans (h.apart p)
  · change s.made.count p = (s.timers.destroy.lives p).length + s.inFlight p
    rw [(freed p).2.1, h.made p]

theorem Conserved.next {a : Action Θ} (h : Conserved loopThread clock s)
    (hn : next loopThread clock s a = some t) : Conserved loopThread clock t := by
  cases a with
  | addTimer u timer =>
    obtain ⟨⟨may, unused⟩, rfl⟩ := guard_met hn
    split_ifs with here
    · subst here
      exact h.addHere may unused
    · exact h.create may here unused
  | queueInLoop u =>
    obtain ⟨l, taken, rfl⟩ := Option.map_eq_some_iff.mp (Option.ite_none_right_eq_some.mp hn).2
    exact h.queueInLoop taken
  | poll wakeup timerfd =>
    obtain ⟨l, taken, rfl⟩ := Option.map_eq_some_iff.mp (Option.ite_none_right_eq_some.mp hn).2
    exact h.poll taken
  | loop a =>
    obtain ⟨ready, hn⟩ := Option.ite_none_right_eq_some.mp hn
    obtain ⟨l, taken, rfl⟩ := Option.map_eq_some_iff.mp hn
    cases a with
    | runFunctor => exact h.runFunctor ready taken
    | _ => exact h.others ready taken nofun
  | expire =>
    obtain ⟨alive, hn⟩ := Option.ite_none_right_eq_some.mp hn
    obtain ⟨q, taken, rfl⟩ := Option.map_eq_some_iff.mp hn
    exact h.work alive taken nofun id
  | handleRead =>
    obtain ⟨⟨-, -, alive⟩, hn⟩ := Option.ite_none_right_eq_some.mp hn
    obtain ⟨q, taken, rfl⟩ := Option.map_eq_some_iff.mp hn
    exact h.work alive taken nofun nofun
  | proceed =>
    obtain ⟨⟨-, alive⟩, hn⟩ := Option.ite_none_right_eq_some.mp hn
    obtain ⟨q, taken, rfl⟩ := Option.map_eq_some_iff.mp hn
    exact h.work alive taken nofun id
  | destroy =>
    obtain ⟨⟨back, free, alive, none_⟩, rfl⟩ := guard_met hn
    exact h.destroy alive back free none_

theorem conserved (h : (loopTimers loopThread clock).Reachable Any s) :
    Conserved loopThread clock s :=
  h.invariant (P := Conserved loopThread clock)
    (fun s start => by
      obtain rfl := start
      exact construct_conserved) fun _ _ _ hs _ hn => hs.next hn

end Runs

section Disposal

/-- Every `Timer` made is on its way to the loop or has a life in the queue, one at a time for an
address; none is deleted twice. Behind the destructor every one that was in the queue has been
deleted, and those are left whose functors the loop did not run. -/
structure Disposed (s : LoopTimers Θ) : Prop where
  accounted : ∀ p, s.made.count p = (s.timers.lives p).length + s.inFlight p
  apart : ∀ p, s.inFlight p + ((s.timers.lives p).countP fun l => l.deletes = 0) ≤ 1
  once : ∀ p, ∀ l ∈ s.timers.lives p, l.deletes ≤ 1
  freed : s.destroyed = true → ∀ p, (∀ l ∈ s.timers.lives p, l.deletes = 1) ∧
    s.made.count p = (s.timers.lives p).length + load (weight p) s.loop.pendingFunctors_

/-- The timers made by any threads, over the whole life of the queue. -/
theorem timers_disposed (h : (loopTimers loopThread clock).Reachable Any s) : Disposed s := by
  have hs := conserved h
  have deleted : ∀ p, (∀ l ∈ s.timers.lives p, l.deletes = 1) →
      ((s.timers.lives p).countP fun l => l.deletes = 0) = 0 := fun p dead => by
    refine List.countP_eq_zero.mpr fun l hl => ?_
    simp [dead l hl]
  refine ⟨hs.made, fun p => ?_, fun p l hl => ?_, fun dead p => ⟨?_, ?_⟩⟩
  · cases dead : s.destroyed with
    | true =>
      obtain ⟨-, -, freed⟩ := hs.gone dead
      rw [deleted p (freed p).2]
      exact (Nat.le_add_right _ _).trans (hs.apart p)
    | false =>
      rw [((hs.historic dead).lived p).count]
      have apart := hs.apart p
      cases there : s.timers.queue.heap p with
      | none => rw [there] at apart; exact apart
      | some t => rw [there] at apart; exact apart
  · cases dead : s.destroyed with
    | true => exact ((hs.gone dead).2.2 p).2 l hl |>.le
    | false =>
      rcases ((hs.historic dead).lived p).cases hl with past | ⟨t, -, current⟩
      · exact past.deleted.le
      · exact current.kept.le.trans (Nat.zero_le 1)
  · exact ((hs.gone dead).2.2 p).2
  · obtain ⟨back, none_, -⟩ := hs.gone dead
    have nobody : ∑ t, weight p (ofCreated (s.created t)) = 0 :=
      Finset.sum_eq_zero fun t _ => by rw [Option.isNone_iff_eq_none.mp (none_ t)]; rfl
    have batch : s.loop.functors = [] := hs.batch (by simp [back])
    rw [hs.made p, inFlight, nobody, batch, Nat.zero_add, List.nil_append]

/-- A repeating timer from before `loop()`, one that another thread adds, and a third that
comes too late for the last turn of the loop. -/
theorem timers_disposed_late :
    ∃ s, (loopTimers (0 : Fin 2) fun n => 1000 + 10 * n).Reachable Any s ∧
      s.destroyed = true ∧ s.made = [1, 2, 3] ∧
      [1, 2, 3].map (fun p => (s.timers.lives p).map (·.deletes)) = [[1], [1], []] ∧
      s.inFlight 3 = 1 ∧ Disposed s := by
  have run : ((loopTimers (0 : Fin 2) fun n => 1000 + 10 * n).execute Any construct
      [.addTimer 0 ⟨1, 1005, true, 50⟩, .proceed, .addTimer 1 ⟨2, 1002, false, 0⟩, .queueInLoop 1,
        .loop .enter, .loop .reset, .loop .test, .expire, .loop (.queueCheck 1),
        .loop (.queueWakeup 1), .poll true true, .loop .handleRead, .handleRead, .proceed, .proceed,
        .proceed, .proceed, .proceed, .proceed, .proceed, .loop .callPending, .loop .swap,
        .loop .runFunctor, .proceed, .addTimer 1 ⟨3, 1500, false, 0⟩, .queueInLoop 1,
        .loop (.queueCheck 1), .loop (.queueWakeup 1), .loop (.quit 1), .loop .endPending,
        .loop .test, .destroy]).map
      (fun s => (s.destroyed, s.made, [1, 2, 3].map fun p => (s.timers.lives p).map (·.deletes),
        s.inFlight 3)) = some (true, [1, 2, 3], [[1], [1], []], 1) := by
    decide +kernel
  obtain ⟨s, reached, ends⟩ := System.Reachable.of_replay rfl run
  simp only [Prod.mk.injEq] at ends
  obtain ⟨dead, made, deletes, left⟩ := ends
  exact ⟨s, reached, dead, made, deletes, left, timers_disposed reached⟩

end Disposal

section Delivery

def Works (s : LoopTimers Θ) : Action Θ → Prop
  | .addTimer _ _ => False
  | .queueInLoop t => (s.created t).isSome
  | .poll wakeup _ => wakeup = true
  | .loop a => LoopProgress.Working LoopProgress.Everyone s.loop a
  | .expire => False
  | .handleRead => True
  | .proceed => True
  | .destroy => False

def left : TimerPhase → ℕ
  | .idle => 0
  | .calling _ ran todo => 3 * (ran.length + todo.length) + 2 * todo.length + 2
  | .callback _ ran todo => 3 * (ran.length + todo.length) + 2 * todo.length + 3
  | .resetting todo => 3 * todo.length + 1
  | .restarted _ todo => 3 * todo.length + 3
  | .rearming todo => 3 * todo.length + 2

omit [DecidableEq Θ] [Fintype Θ] in
theorem proceed_lessens (clock : ℕ → ℤ) {q : TimerSteps} (busy : ¬q.phase.rests) :
    ∃ r, q.proceed clock = some r ∧ r.rearm = q.rearm ∧ left r.phase < left q.phase := by
  unfold TimerSteps.proceed
  cases phase : q.phase with
  | idle => exact absurd (by rw [phase]; rfl) busy
  | calling now ran todo =>
    cases todo with
    | nil => exact ⟨_, rfl, rfl, by simp [left]⟩
    | cons e todo => exact ⟨_, rfl, rfl, by simp [left, TimerSteps.run]; omega⟩
  | callback now ran todo => exact ⟨_, rfl, rfl, by simp [left]⟩
  | resetting todo =>
    cases todo with
    | nil => exact ⟨_, rfl, rfl, by simp [left]⟩
    | cons e todo =>
      refine ⟨_, rfl, ?_⟩
      unfold TimerSteps.turn
      split_ifs
      · exact ⟨rfl, by simp [left]; omega⟩
      · exact ⟨rfl, by simp [left]; omega⟩
  | restarted e todo => exact ⟨_, rfl, rfl, by simp [left]⟩
  | rearming todo => exact ⟨_, rfl, rfl, by simp [left]⟩

/-- The loop thread comes out of the timer queue. -/
theorem queue_settles (clock : ℕ → ℤ) (idle : s.loop.pc loopThread = .idle)
    (alive : s.destroyed = false) :
    ∃ q, (loopTimers loopThread clock).Path Works s { s with timers := q } ∧
      ({ s with timers := q } : LoopTimers Θ).Free := by
  have armed : ∀ n, ∀ q : TimerSteps, left q.phase ≤ n → q.rearm = none →
      ∃ r, (loopTimers loopThread clock).Path Works { s with timers := q }
        { s with timers := r } ∧ ({ s with timers := r } : LoopTimers Θ).Free := by
    intro n
    induction n with
    | zero =>
      intro q most none_
      refine ⟨q, .refl _, none_, ?_⟩
      cases phase : q.phase <;> simp_all [left, TimerPhase.rests]
    | succ n ih =>
      intro q most none_
      by_cases rests : q.phase.rests
      · exact ⟨q, .refl _, none_, rests⟩
      · obtain ⟨r, taken, same, fewer⟩ := proceed_lessens clock rests
        have stepped : next loopThread clock { s with timers := q } .proceed =
            some { s with timers := r } := by
          simp only [next, TimerSteps.next]
          rw [if_pos ⟨idle, alive⟩, none_, taken]
          rfl
        obtain ⟨u, run, free⟩ := ih r (by omega) (same.trans none_)
        exact ⟨u, (System.Path.single (a := .proceed) trivial stepped).trans run, free⟩
  cases pending : s.timers.rearm with
  | none => exact armed _ s.timers (le_refl _) pending
  | some expiration =>
    have stepped : next loopThread clock s .proceed = some { s with timers := { s.timers with
        queue := s.timers.queue.resetTimerfd clock expiration, rearm := none } } := by
      simp only [next, TimerSteps.next]
      rw [if_pos ⟨idle, alive⟩, pending]
      rfl
    obtain ⟨u, run, free⟩ := armed _ { s.timers with
        queue := s.timers.queue.resetTimerfd clock expiration, rearm := none } (le_refl _) rfl
    exact ⟨u, (System.Path.single (a := .proceed) trivial stepped).trans run, free⟩

theorem loop_steps (clock : ℕ → ℤ) {a : EventLoop.Action Θ TimerFunctor}
    {l : EventLoop Θ TimerFunctor} (ready : s.Ready loopThread a)
    (taken : EventLoop.next loopThread s.loop a = some l) :
    next loopThread clock s (.loop a) = some (s.follow l a) :=
  (if_pos ready).trans (congrArg (Option.map _) taken)

theorem call_returns (loopThread : Θ) (clock : ℕ → ℤ) (s : LoopTimers Θ) :
    ∃ l, (loopTimers loopThread clock).Path Works s { s with loop := l } ∧
      LoopProgress.Steady s.loop l ∧ l.pc loopThread = .idle := by
  obtain ⟨l, run, steady, idle, -⟩ :=
    LoopProgress.calling_ends (T := LoopProgress.Everyone) loopThread s.loop (t := loopThread)
      trivial
  refine ⟨l, ?_, steady, idle⟩
  clear steady idle
  induction run with
  | refl => exact .refl s
  | @tail k m _ taken ih =>
    obtain ⟨a, calls, hn⟩ := taken
    have ready : ({ s with loop := k } : LoopTimers Θ).Ready loopThread a := by
      cases a <;> first | exact trivial | exact calls.elim
    have stepped := loop_steps clock ready hn
    have follows : ({ s with loop := k } : LoopTimers Θ).follow m a = { s with loop := m } := by
      cases a <;> first | rfl | exact calls.elim
    rw [follows] at stepped
    exact ih.tail (a := .loop a) calls.working stepped

theorem created_queued (h : Conserved loopThread clock s) (T : Finset Θ) :
    ∃ l, (loopTimers loopThread clock).Path Works s
        { s with loop := l, created := fun t => if t ∈ T then none else s.created t } ∧
      l.loopPc = s.loop.loopPc ∧ l.quit_ = s.loop.quit_ ∧
      ∀ u, u ∉ T ∨ u = loopThread → l.pc u = s.loop.pc u := by
  induction T using Finset.induction_on with
  | empty => exact ⟨s.loop, .refl s, rfl, rfl, fun _ _ => rfl⟩
  | insert t T new ih =>
    obtain ⟨l, run, place, quit, others⟩ := ih
    have cleared : (fun u => if u ∈ insert t T then none else s.created u) = Function.update
        (fun u => if u ∈ T then none else s.created u) t none := by
      funext u
      by_cases same : u = t
      · subst same
        simp
      · simp [same]
    rw [cleared]
    cases timer : s.created t with
    | none =>
      have untouched : Function.update (fun u => if u ∈ T then none else s.created u) t none =
          fun u => if u ∈ T then none else s.created u :=
        Function.update_eq_self_iff.mpr (by simp [timer])
      rw [untouched]
      exact ⟨l, run, place, quit, fun u out => others u (out.imp_left fun no mem =>
        no (Finset.mem_insert_of_mem mem))⟩
    | some timer' =>
      obtain ⟨idle, other⟩ := h.calling t (by rw [timer]; rfl)
      let f := TimerFunctor.addTimerInLoop timer'
      have taken : EventLoop.next loopThread l (.queueInLoop t f) =
          some { l.goto t .inserted with pendingFunctors_ := l.pendingFunctors_ ++ [f] } :=
        if_pos ⟨(others t (.inl new)).trans idle, fun same => absurd same other⟩
      have here : (if t ∈ T then none else s.created t) = some timer' := by rw [if_neg new, timer]
      have stepped : next loopThread clock
          { s with loop := l, created := fun u => if u ∈ T then none else s.created u }
          (.queueInLoop t) = some { s with
            loop := { l.goto t .inserted with pendingFunctors_ := l.pendingFunctors_ ++ [f] }
            created := Function.update (fun u => if u ∈ T then none else s.created u) t none } := by
        simp only [next]
        rw [if_pos fun same => absurd same other, here]
        exact congrArg (Option.map _) taken
      refine ⟨_, run.tail (a := .queueInLoop t) ?_ stepped, place, quit, fun u out => ?_⟩
      · change (if t ∈ T then none else s.created t).isSome
        rw [here]
        rfl
      · have apart : u ≠ t := by
          rintro rfl
          exact out.elim (fun no => no (Finset.mem_insert_self u T)) other
        exact (goto_other l apart _).trans (others u (out.imp_left fun no mem =>
          no (Finset.mem_insert_of_mem mem)))

structure Settled (s : LoopTimers Θ) : Prop where
  free : s.Free
  inactive : s.timerfdActive = false
  alive : s.destroyed = false

omit [DecidableEq Θ] [Fintype Θ] in
theorem Settled.with_loop {l : EventLoop Θ TimerFunctor} (h : Settled s) :
    Settled { s with loop := l } := ⟨h.free, h.inactive, h.alive⟩

theorem event_settles (h : Conserved loopThread clock s) (idle : s.loop.pc loopThread = .idle)
    (alive : s.destroyed = false) :
    ∃ q, (loopTimers loopThread clock).Path Works s
        { s with timers := q, timerfdActive := false } ∧
      Settled ({ s with timers := q, timerfdActive := false } : LoopTimers Θ) := by
  obtain ⟨q, run, free⟩ := queue_settles clock idle alive
  cases active : s.timerfdActive with
  | false => exact ⟨q, by rw [← active]; exact run, free, rfl, alive⟩
  | true =>
    have read : next loopThread clock { s with timers := q } .handleRead =
        some { s with timers := q.enter clock, timerfdActive := false } := by
      have rests : q.phase = .idle := by
        have rests := free.2
        cases phase : q.phase <;> simp_all [TimerPhase.rests]
      have entered : TimerSteps.next clock q .handleRead = some (q.enter clock) := by
        simp only [TimerSteps.next]
        rw [free.1, rests]
      exact (if_pos ⟨⟨h.active active, idle⟩, active, alive⟩).trans
        (congrArg (Option.map _) entered)
    obtain ⟨r, rest, free⟩ := queue_settles clock
      (s := { s with timers := q.enter clock, timerfdActive := false }) idle alive
    have works : Works ({ s with timers := q } : LoopTimers Θ) .handleRead := trivial
    exact ⟨r, (run.tail works read).trans rest, free, rfl, alive⟩

theorem work_lifts (clock : ℕ → ℤ) {m : EventLoop Θ TimerFunctor} (settled : Settled s)
    (run : (eventLoop loopThread).Path (LoopProgress.Working LoopProgress.Everyone) s.loop m) :
    ∃ q, (loopTimers loopThread clock).Path Works s { s with loop := m, timers := q } ∧
      Settled ({ s with loop := m, timers := q } : LoopTimers Θ) := by
  induction run with
  | refl => exact ⟨s.timers, .refl s, settled⟩
  | @tail k m _ taken ih =>
    obtain ⟨a, works, hn⟩ := taken
    obtain ⟨q, path, here⟩ := ih
    have plain : ({ s with loop := k, timers := q } : LoopTimers Θ).Ready loopThread a →
        ({ s with loop := k, timers := q } : LoopTimers Θ).follow m a =
          { s with loop := m, timers := q } →
        ∃ r, (loopTimers loopThread clock).Path Works s { s with loop := m, timers := r } ∧
          Settled ({ s with loop := m, timers := r } : LoopTimers Θ) := by
      intro ready follows
      have stepped := loop_steps clock ready hn
      rw [follows] at stepped
      exact ⟨q, path.tail (a := .loop a) works stepped, here.with_loop⟩
    cases a with
    | queueInLoop t f => exact works.1.elim
    | quit t => exact works.1.elim
    | poll wakeup =>
      have woken : wakeup = true := by
        cases wakeup with
        | true => rfl
        | false => exact absurd rfl works.2
      have stepped : next loopThread clock { s with loop := k, timers := q }
          (.poll wakeup false) = some { s with loop := m, timers := q, timerfdActive := false } :=
        (if_pos ⟨here.free, nofun⟩).trans (congrArg (Option.map _) hn)
      have same : ({ s with loop := m, timers := q, timerfdActive := false } : LoopTimers Θ) =
          { s with loop := m, timers := q } := by rw [← settled.inactive]
      rw [same] at stepped
      exact ⟨q, path.tail (a := .poll wakeup false) woken stepped, here.with_loop⟩
    | runFunctor =>
      have idle : m.pc loopThread = .idle := by
        obtain ⟨ready, rfl⟩ := guard_met hn
        exact ready.1.2
      have stepped := loop_steps (s := { s with loop := k, timers := q }) (a := .runFunctor) clock
        here.free hn
      obtain ⟨r, rest, free⟩ := queue_settles clock
        (s := ({ s with loop := k, timers := q } : LoopTimers Θ).follow m .runFunctor) idle
        settled.alive
      have worked : Works ({ s with loop := k, timers := q } : LoopTimers Θ)
        (.loop .runFunctor) := works
      exact ⟨r, (path.tail worked stepped).trans rest, free, settled.inactive, settled.alive⟩
    | callPending => exact plain ⟨here.free, here.inactive⟩ rfl
    | queueCheck t => exact plain trivial rfl
    | queueWakeup t => exact plain trivial rfl
    | quitCheck t => exact plain trivial rfl
    | quitWakeup t => exact plain trivial rfl
    | _ => exact plain here.free rfl

/-- Every timer made so far can be brought into the queue from every state in which the loop goes
on, with no new call and no timeout of `poll`. -/
theorem timers_inserted (h : (loopTimers loopThread clock).Reachable Any s)
    (goes : LoopProgress.GoesOn s.loop) :
    ∃ u, (loopTimers loopThread clock).Path Works s u ∧
      ∀ p, s.made.count p = (u.timers.lives p).length := by
  have hs := conserved h
  have alive : s.destroyed = false := by
    by_contra dead
    exact goes.1 (hs.gone (Bool.not_eq_false _ ▸ dead)).1
  obtain ⟨l, returns, steady, idle⟩ := call_returns loopThread clock s
  have reached₁ := h.path (returns.mono fun _ _ _ => trivial)
  obtain ⟨q, settles, settled⟩ := event_settles (conserved reached₁) idle alive
  have reached₂ := reached₁.path (settles.mono fun _ _ _ => trivial)
  obtain ⟨k, queues, place, quit, -⟩ := created_queued (conserved reached₂) Finset.univ
  have reached₃ := reached₂.path (queues.mono fun _ _ _ => trivial)
  have goes' : LoopProgress.GoesOn k := by
    obtain ⟨inside, stays⟩ := goes
    rw [← steady.loopPc] at inside stays
    rw [← steady.quit] at stays
    exact ⟨place ▸ inside, by rw [place, quit]; exact stays⟩
  obtain ⟨m, drains, batch, queue⟩ := LoopProgress.queue_drains (conserved reached₃).loop goes'
  simp only [Finset.mem_univ, if_true] at queues reached₃
  obtain ⟨r, works, -⟩ := work_lifts clock (s := { s with
      loop := k, timers := q, timerfdActive := false, created := fun _ => none })
    ⟨settled.free, settled.inactive, settled.alive⟩ drains
  have landed := (conserved (reached₃.path (works.mono fun _ _ _ => trivial))).made
  have none_ : ∀ p, ({ s with
      loop := m, timers := r, timerfdActive := false, created := fun _ => none } :
      LoopTimers Θ).inFlight p = 0 := fun p => by
    simp [inFlight, batch, queue, ofCreated, weight]
  refine ⟨_, ((returns.trans settles).trans queues).trans works, fun p => ?_⟩
  exact (landed p).trans (congrArg (_ + ·) (none_ p))

/-- The loop is in `poll` with the timerfd disarmed, one thread has made its timer, and another
has queued one and not woken the loop up. -/
theorem timers_inserted_polling :
    ∃ s, (loopTimers (0 : Fin 3) fun n => 1000 + 10 * n).Reachable Any s ∧
      (s.loop.loopPc, s.loop.wakeupFd_, s.made) = (.polling, 0, [1, 2]) ∧
      [1, 2].map (fun p => (s.timers.lives p).length) = [0, 0] ∧
      ∃ u, (loopTimers (0 : Fin 3) fun n => 1000 + 10 * n).Path Works s u ∧
        ∀ p, s.made.count p = (u.timers.lives p).length := by
  have run : ((loopTimers (0 : Fin 3) fun n => 1000 + 10 * n).execute Any construct
      [.loop .enter, .loop .reset, .loop .test, .addTimer 1 ⟨1, 1005, true, 50⟩,
        .addTimer 2 ⟨2, 1002, false, 0⟩, .queueInLoop 2]).map
      (fun s => ((s.loop.loopPc, s.loop.wakeupFd_, s.made),
        [1, 2].map fun p => (s.timers.lives p).length, decide (LoopProgress.GoesOn s.loop))) =
      some ((.polling, 0, [1, 2]), [0, 0], true) := by
    decide +kernel
  obtain ⟨s, reached, ends⟩ := System.Reachable.of_replay rfl run
  simp only [Prod.mk.injEq, decide_eq_true_eq] at ends
  obtain ⟨state, lives, goes⟩ := ends
  exact ⟨s, reached, by simpa using state, lives, timers_inserted reached goes⟩

end Delivery

end LoopTimers

end TinyNetwork

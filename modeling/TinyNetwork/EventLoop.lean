import TinyNetwork.Transition
import Mathlib.Algebra.Group.Nat.Defs
import Mathlib.Logic.Function.Basic
import Mathlib.Tactic.Common

/-! The event loop of `net/EventLoop.cc` with any threads calling `queueInLoop` and
`quit`. The loop thread goes round the loop test, `poll`, the active channels and
`doPendingFunctors`; inside handlers and functors it makes calls of its own. The
critical sections under `mutex_`, the accesses to the atomic flags and the reads and
writes of the wakeup eventfd are single steps. `runInLoop` runs its functor on the
spot in the loop thread and is `queueInLoop` elsewhere. -/
namespace TinyNetwork
open Transition

/-- The loop thread: before `loop()`, past `looping_ = true`, at the loop test, inside
`poll`, at the active channels, past `callingPendingFunctors_ = true`, past the swap,
or back from `loop()`. -/
inductive LoopPc where
  | outside
  | entered
  | test
  | polling
  | handling
  | swapping
  | running
  | returned
  deriving DecidableEq

/-- A thread inside `queueInLoop` (past the insertion, about to wake up) or inside `quit`
(past the store, about to wake up). -/
inductive CallPc where
  | idle
  | inserted
  | waking
  | quitStored
  | quitWaking
  deriving DecidableEq

/-- `wakeupFd_` is the counter of the eventfd, `wakeupActive` says whether its channel
is still among the active ones, and `functors` is the rest of the running batch. -/
structure EventLoop (Θ φ : Type*) where
  looping_ : Bool
  quit_ : Bool
  callingPendingFunctors_ : Bool
  pendingFunctors_ : List φ
  wakeupFd_ : ℕ
  wakeupActive : Bool
  functors : List φ
  loopPc : LoopPc
  pc : Θ → CallPc
  quitReturned : Bool

namespace EventLoop

variable {Θ φ : Type*} [DecidableEq Θ]

def construct : EventLoop Θ φ where
  looping_ := false
  quit_ := false
  callingPendingFunctors_ := false
  pendingFunctors_ := []
  wakeupFd_ := 0
  wakeupActive := false
  functors := []
  loopPc := .outside
  pc := fun _ => .idle
  quitReturned := false

def goto (s : EventLoop Θ φ) (t : Θ) (p : CallPc) : EventLoop Θ φ :=
  { s with pc := Function.update s.pc t p }

def wakeup (s : EventLoop Θ φ) : EventLoop Θ φ :=
  { s with wakeupFd_ := if s.wakeupFd_ < 2 ^ 64 - 2 then s.wakeupFd_ + 1 else s.wakeupFd_ }

inductive Action (Θ φ : Type*) where
  | enter
  | reset
  | test
  | poll (wakeup : Bool)
  | handleRead
  | callPending
  | swap
  | runFunctor
  | endPending
  | queueInLoop (t : Θ) (f : φ)
  | queueCheck (t : Θ)
  | queueWakeup (t : Θ)
  | quit (t : Θ)
  | quitCheck (t : Θ)
  | quitWakeup (t : Θ)

variable (loopThread : Θ)

def At (s : EventLoop Θ φ) (p : LoopPc) : Prop := s.loopPc = p ∧ s.pc loopThread = .idle

instance (s : EventLoop Θ φ) (p : LoopPc) : Decidable (At loopThread s p) := by
  unfold At
  infer_instance

def InUser (s : EventLoop Θ φ) : Prop := s.loopPc = .handling ∨ s.loopPc = .running

instance (s : EventLoop Θ φ) : Decidable (InUser s) := by
  unfold InUser
  infer_instance

/-- `poll` reports the eventfd only when its counter is positive, and not always then; it
may return for other descriptors or its timeout. The loop thread may also call `quit`
before it enters `loop()`. -/
def next (s : EventLoop Θ φ) : Action Θ φ → Option (EventLoop Θ φ)
  | .enter =>
    if At loopThread s .outside then some { s with looping_ := true, loopPc := .entered }
    else none
  | .reset =>
    if At loopThread s .entered then some { s with quit_ := false, loopPc := .test } else none
  | .test =>
    if At loopThread s .test then
      some (if s.quit_ then { s with looping_ := false, loopPc := .returned }
        else { s with loopPc := .polling })
    else none
  | .poll wakeup =>
    if At loopThread s .polling ∧ (wakeup = true → 0 < s.wakeupFd_) then
      some { s with wakeupActive := wakeup, loopPc := .handling }
    else none
  | .handleRead =>
    if At loopThread s .handling ∧ s.wakeupActive = true then
      some { s with wakeupFd_ := 0, wakeupActive := false }
    else none
  | .callPending =>
    if At loopThread s .handling ∧ s.wakeupActive = false then
      some { s with callingPendingFunctors_ := true, loopPc := .swapping }
    else none
  | .swap =>
    if At loopThread s .swapping then
      some { s with functors := s.pendingFunctors_, pendingFunctors_ := [], loopPc := .running }
    else none
  | .runFunctor =>
    if At loopThread s .running ∧ s.functors ≠ [] then
      some { s with functors := s.functors.tail }
    else none
  | .endPending =>
    if At loopThread s .running ∧ s.functors = [] then
      some { s with callingPendingFunctors_ := false, loopPc := .test }
    else none
  | .queueInLoop t f =>
    if s.pc t = .idle ∧ (t = loopThread → InUser s) then
      some { s.goto t .inserted with pendingFunctors_ := s.pendingFunctors_ ++ [f] }
    else none
  | .queueCheck t =>
    if s.pc t = .inserted then
      some (s.goto t (if t ≠ loopThread ∨ s.callingPendingFunctors_ = true then .waking
        else .idle))
    else none
  | .queueWakeup t => if s.pc t = .waking then some (s.goto t .idle).wakeup else none
  | .quit t =>
    if s.pc t = .idle ∧ (t = loopThread → InUser s ∨ s.loopPc = .outside) then
      some { s.goto t .quitStored with quit_ := true }
    else none
  | .quitCheck t =>
    if s.pc t = .quitStored then
      some (if t = loopThread then s.goto t .quitWaking
        else { s.goto t .idle with quitReturned := true })
    else none
  | .quitWakeup t =>
    if s.pc t = .quitWaking then some { (s.goto t .idle).wakeup with quitReturned := true }
    else none

def eventLoop : System (EventLoop Θ φ) (Action Θ φ) where
  init s := s = construct
  next := next loopThread

variable {loopThread} {s s' : EventLoop Θ φ}

omit [DecidableEq Θ] in
theorem wakeup_pos (s : EventLoop Θ φ) : 0 < s.wakeup.wakeupFd_ := by
  simp only [wakeup]
  split_ifs <;> omega

@[simp] theorem goto_self (s : EventLoop Θ φ) (t : Θ) (p : CallPc) : (s.goto t p).pc t = p := by
  simp [goto]

theorem goto_other (s : EventLoop Θ φ) {t u : Θ} (h : u ≠ t) (p : CallPc) :
    (s.goto t p).pc u = s.pc u := by
  simp [goto, h]

section Wakeups

def isQueueing : CallPc → Bool
  | .inserted => true
  | .waking => true
  | _ => false

/-- The wakeup for what is queued: done and not yet drained, or still to come from a
thread inside `queueInLoop`. -/
def Signalled (s : EventLoop Θ φ) : Prop := 0 < s.wakeupFd_ ∨ ∃ t, isQueueing (s.pc t) = true

def Swaps (s : EventLoop Θ φ) : Prop := s.loopPc = .handling ∨ s.loopPc = .swapping

/-- `callingPendingFunctors_` is up exactly in `doPendingFunctors`, the loop thread calls
`queueInLoop` only in user code, and what is queued is signalled or about to be
swapped out. -/
structure Woken (loopThread : Θ) (s : EventLoop Θ φ) : Prop where
  calling : s.callingPendingFunctors_ = true ↔ s.loopPc = .swapping ∨ s.loopPc = .running
  user : isQueueing (s.pc loopThread) = true → InUser s
  covered : s.pendingFunctors_ ≠ [] → Swaps s ∨ Signalled s

omit [DecidableEq Θ] in
theorem construct_woken : Woken loopThread (construct : EventLoop Θ φ) :=
  ⟨by simp [construct], by simp [construct, isQueueing], by simp [construct]⟩

omit [DecidableEq Θ] in
theorem quiet_of_idle (h : s.pc loopThread = .idle) : isQueueing (s.pc loopThread) ≠ true := by
  rw [h]
  decide

theorem goto_signalled {t : Θ} {p : CallPc} (h : isQueueing p = true) :
    Signalled (s.goto t p) :=
  .inr ⟨t, by rw [goto_self]; exact h⟩

theorem Signalled.goto {t : Θ} {p : CallPc} (h : Signalled s)
    (keep : isQueueing (s.pc t) = true → isQueueing p = true) : Signalled (s.goto t p) := by
  rcases h with written | ⟨u, hu⟩
  · exact .inl written
  · by_cases same : u = t
    · subst same
      exact goto_signalled (keep hu)
    · exact .inr ⟨u, by rw [goto_other s same]; exact hu⟩

theorem Woken.goto {t : Θ} {p : CallPc} (h : Woken loopThread s)
    (user : t = loopThread → isQueueing p = true → InUser s)
    (covered : s.pendingFunctors_ ≠ [] → Swaps s ∨ Signalled (s.goto t p)) :
    Woken loopThread (s.goto t p) := by
  refine ⟨h.calling, fun queueing => ?_, covered⟩
  by_cases same : loopThread = t
  · subst same
    rw [goto_self] at queueing
    exact user rfl queueing
  · rw [goto_other s same] at queueing
    exact h.user queueing

theorem Woken.wakeup {t : Θ} (h : Woken loopThread s) :
    Woken loopThread (s.goto t .idle).wakeup := by
  refine ⟨h.calling, fun queueing => ?_, fun _ => .inr (.inl (wakeup_pos _))⟩
  by_cases same : loopThread = t
  · subst same
    simp [EventLoop.wakeup, isQueueing] at queueing
  · rw [show (s.goto t .idle).wakeup.pc loopThread = (s.goto t .idle).pc loopThread from rfl,
      goto_other s same] at queueing
    exact h.user queueing

omit [DecidableEq Θ] in
theorem Woken.signalled (h : Woken loopThread s) (away : ¬Swaps s)
    (waiting : s.pendingFunctors_ ≠ []) : Signalled s :=
  (h.covered waiting).resolve_left away

theorem Woken.outside {t : Θ} {p : CallPc} (h : Woken loopThread s)
    (before : isQueueing (s.pc t) = false) (after : isQueueing p = false) :
    Woken loopThread (s.goto t p) :=
  h.goto (fun _ queueing => by simp [after] at queueing) fun waiting =>
    (h.covered waiting).imp id fun signalled =>
      signalled.goto fun queueing => by simp [before] at queueing

omit [DecidableEq Θ] in
theorem woken_of_advance {p : LoopPc} (idle : s.pc loopThread = .idle)
    (pc : s'.pc = s.pc) (loop : s'.loopPc = p)
    (calling : s'.callingPendingFunctors_ = true ↔ p = .swapping ∨ p = .running)
    (covered : s'.pendingFunctors_ ≠ [] → Swaps s' ∨ Signalled s') : Woken loopThread s' := by
  refine ⟨loop ▸ calling, fun queueing => ?_, covered⟩
  rw [pc] at queueing
  exact absurd queueing (quiet_of_idle idle)

omit [DecidableEq Θ] in
theorem Woken.advance (h : Woken loopThread s) (idle : s.pc loopThread = .idle)
    (away : ¬Swaps s) (pc : s'.pc = s.pc) (queue : s'.pendingFunctors_ = s.pendingFunctors_)
    (counter : s'.wakeupFd_ = s.wakeupFd_)
    (calling : s'.callingPendingFunctors_ = true ↔
      s'.loopPc = .swapping ∨ s'.loopPc = .running) : Woken loopThread s' := by
  refine woken_of_advance idle pc rfl calling fun waiting => .inr ?_
  have signalled := h.signalled away (queue ▸ waiting)
  unfold Signalled
  rw [pc, counter]
  exact signalled

theorem next_woken {a : Action Θ φ} (h : Woken loopThread s)
    (hn : next loopThread s a = some s') : Woken loopThread s' := by
  have calling := h.calling
  cases a with
  | enter =>
    obtain ⟨ready, rfl⟩ := guard_met hn
    exact h.advance ready.2 (by simp [Swaps, ready.1]) rfl rfl rfl
      (by simpa [ready.1] using calling)
  | reset =>
    obtain ⟨ready, rfl⟩ := guard_met hn
    exact h.advance ready.2 (by simp [Swaps, ready.1]) rfl rfl rfl
      (by simpa [ready.1] using calling)
  | test =>
    obtain ⟨ready, rfl⟩ := guard_met hn
    have away : ¬Swaps s := by simp [Swaps, ready.1]
    split_ifs
    · exact h.advance ready.2 away rfl rfl rfl (by simpa [ready.1] using calling)
    · exact h.advance ready.2 away rfl rfl rfl (by simpa [ready.1] using calling)
  | poll wakeup =>
    obtain ⟨ready, rfl⟩ := guard_met hn
    exact woken_of_advance ready.1.2 rfl rfl (by simpa [ready.1.1] using calling)
      fun _ => .inl (.inl rfl)
  | handleRead =>
    obtain ⟨ready, rfl⟩ := guard_met hn
    exact woken_of_advance ready.1.2 rfl ready.1.1 (by simpa [ready.1.1] using calling)
      fun _ => .inl (.inl ready.1.1)
  | callPending =>
    obtain ⟨ready, rfl⟩ := guard_met hn
    exact woken_of_advance ready.1.2 rfl rfl (by simp) fun _ => .inl (.inr rfl)
  | swap =>
    obtain ⟨ready, rfl⟩ := guard_met hn
    exact woken_of_advance ready.2 rfl rfl (by simpa [ready.1] using calling)
      fun waiting => absurd rfl waiting
  | runFunctor =>
    obtain ⟨ready, rfl⟩ := guard_met hn
    exact h.advance ready.1.2 (by simp [Swaps, ready.1.1]) rfl rfl rfl
      (by simpa [ready.1.1] using calling)
  | endPending =>
    obtain ⟨ready, rfl⟩ := guard_met hn
    exact h.advance ready.1.2 (by simp [Swaps, ready.1.1]) rfl rfl rfl (by simp)
  | queueInLoop t f =>
    obtain ⟨ready, rfl⟩ := guard_met hn
    have signalled : Signalled (s.goto t .inserted) := goto_signalled rfl
    have moved := h.goto (fun own _ => ready.2 own) fun _ => .inr signalled
    exact ⟨moved.calling, moved.user, fun _ => .inr signalled⟩
  | queueCheck t =>
    obtain ⟨ready, rfl⟩ := guard_met hn
    have inserted : isQueueing (s.pc t) = true := by
      rw [ready]
      rfl
    split_ifs with wakes
    · exact h.goto (fun own _ => h.user (own ▸ inserted)) fun _ => .inr (goto_signalled rfl)
    · -- the loop thread in a handler: the swap of this turn is still to come
      simp only [not_or, ne_eq, not_not] at wakes
      obtain ⟨rfl, quiet⟩ := wakes
      have handling : s.loopPc = .handling :=
        (h.user inserted).resolve_right fun running => quiet (calling.mpr (.inr running))
      exact h.goto (fun _ queueing => by simp [isQueueing] at queueing)
        fun _ => .inl (.inl handling)
  | queueWakeup t =>
    obtain ⟨-, rfl⟩ := guard_met hn
    exact h.wakeup
  | quit t =>
    obtain ⟨ready, rfl⟩ := guard_met hn
    have moved := h.outside (t := t) (p := .quitStored) (by rw [ready.1]; decide) (by decide)
    exact ⟨moved.calling, moved.user, moved.covered⟩
  | quitCheck t =>
    obtain ⟨ready, rfl⟩ := guard_met hn
    split_ifs
    · exact h.outside (by rw [ready]; decide) (by decide)
    · have moved := h.outside (t := t) (p := .idle) (by rw [ready]; decide) (by decide)
      exact ⟨moved.calling, moved.user, moved.covered⟩
  | quitWakeup t =>
    obtain ⟨-, rfl⟩ := guard_met hn
    have woken := h.wakeup (t := t)
    exact ⟨woken.calling, woken.user, woken.covered⟩

/-- Whenever the loop thread is blocked in `poll` and functors are queued, the eventfd
counter is positive, or another thread has inserted its functor and not yet executed
its `wakeup()`. -/
theorem no_lost_wakeup (h : (eventLoop loopThread).Reachable Any s) (blocked : s.loopPc = .polling)
    (waiting : s.pendingFunctors_ ≠ []) :
    0 < s.wakeupFd_ ∨ ∃ t, t ≠ loopThread ∧ isQueueing (s.pc t) = true := by
  have woken : Woken loopThread s :=
    h.invariant (P := Woken loopThread) (fun _ hi => hi ▸ construct_woken)
      fun _ _ _ hs _ hn => next_woken hs hn
  have away : ¬Swaps s := by simp [Swaps, blocked]
  refine (woken.signalled away waiting).imp id fun ⟨t, queueing⟩ => ⟨t, ?_, queueing⟩
  rintro rfl
  simpa [InUser, blocked] using woken.user queueing

theorem no_lost_wakeup_inserted :
    ∃ s : EventLoop Bool ℕ, (eventLoop true).Reachable Any s ∧ s.loopPc = .polling ∧
      s.pendingFunctors_ ≠ [] ∧
      (0 < s.wakeupFd_ ∨ ∃ t, t ≠ true ∧ isQueueing (s.pc t) = true) := by
  have run : ((eventLoop true).execute Any (construct : EventLoop Bool ℕ)
      [.enter, .reset, .test, .queueInLoop false 5]).map
      (fun s => (s.loopPc, s.pendingFunctors_)) = some (.polling, [5]) := by decide +kernel
  obtain ⟨s, reached, ends⟩ := System.Reachable.of_replay rfl run
  simp only [Prod.mk.injEq] at ends
  have waiting : s.pendingFunctors_ ≠ [] := by simp [ends.2]
  exact ⟨s, reached, ends.1, waiting, no_lost_wakeup reached ends.1 waiting⟩

end Wakeups

section Quitting

def isQuitting : CallPc → Bool
  | .quitStored => true
  | .quitWaking => true
  | _ => false

def Requested (s : EventLoop Θ φ) : Prop :=
  s.quitReturned = true ∨ ∃ t, isQuitting (s.pc t) = true

structure Honoured (s : EventLoop Θ φ) : Prop where
  quit : s.quit_ = true
  inside : s.loopPc ≠ .outside ∧ s.loopPc ≠ .entered
  awake : s.loopPc = .polling → 0 < s.wakeupFd_

/-- `quit_` is stored when `loop()` has reset it, and not while the loop thread is blocked
in `poll` with the eventfd counter at zero. -/
def Timely (s : EventLoop Θ φ) : Action Θ φ → Prop
  | .quit _ => s.loopPc ≠ .outside ∧ s.loopPc ≠ .entered ∧
      (s.loopPc = .polling → 0 < s.wakeupFd_)
  | _ => True

theorem requested_of_goto {t : Θ} {p : CallPc} (quiet : isQuitting p = false)
    (h : Requested (s.goto t p)) : Requested s := by
  refine h.imp id fun ⟨u, hu⟩ => ⟨u, ?_⟩
  by_cases same : u = t
  · subst same
    rw [goto_self, quiet] at hu
    cases hu
  · rwa [goto_other s same] at hu

omit [DecidableEq Θ] in
theorem Honoured.keep (h : Honoured s) (quit : s'.quit_ = s.quit_) (loop : s'.loopPc = s.loopPc)
    (counter : 0 < s.wakeupFd_ → 0 < s'.wakeupFd_) : Honoured s' :=
  ⟨quit.trans h.quit, by rw [loop]; exact h.inside,
    fun polling => counter (h.awake (loop.symm.trans polling))⟩

omit [DecidableEq Θ] in
theorem Honoured.advance (h : Honoured s) (quit : s'.quit_ = s.quit_)
    (inside : s'.loopPc ≠ .outside ∧ s'.loopPc ≠ .entered ∧ s'.loopPc ≠ .polling) :
    Honoured s' :=
  ⟨quit.trans h.quit, ⟨inside.1, inside.2.1⟩, fun polling => absurd polling inside.2.2⟩

theorem next_honoured {a : Action Θ φ} (h : Requested s → Honoured s) (ha : Timely s a)
    (hn : next loopThread s a = some s') (requested : Requested s') : Honoured s' := by
  cases a with
  | enter =>
    obtain ⟨ready, rfl⟩ := guard_met hn
    exact absurd ready.1 (h requested).inside.1
  | reset =>
    obtain ⟨ready, rfl⟩ := guard_met hn
    exact absurd ready.1 (h requested).inside.2
  | test =>
    obtain ⟨-, rfl⟩ := guard_met hn
    split_ifs at requested ⊢ with stop
    · exact (h requested).advance rfl (by simp)
    · exact absurd (h requested).quit stop
  | handleRead =>
    obtain ⟨ready, rfl⟩ := guard_met hn
    exact (h requested).advance rfl (by simp [ready.1.1])
  | runFunctor =>
    obtain ⟨ready, rfl⟩ := guard_met hn
    exact (h requested).advance rfl (by simp [ready.1.1])
  | queueInLoop t f =>
    obtain ⟨-, rfl⟩ := guard_met hn
    have before : Requested s := requested_of_goto (p := .inserted) rfl requested
    exact (h before).keep rfl rfl id
  | queueCheck t =>
    obtain ⟨-, rfl⟩ := guard_met hn
    have before : Requested s := requested_of_goto (by split_ifs <;> rfl) requested
    exact (h before).keep rfl rfl id
  | queueWakeup t =>
    obtain ⟨-, rfl⟩ := guard_met hn
    have before : Requested s := requested_of_goto (p := .idle) rfl requested
    exact (h before).keep rfl rfl fun _ => wakeup_pos _
  | quit t =>
    obtain ⟨-, rfl⟩ := guard_met hn
    exact ⟨rfl, ⟨ha.1, ha.2.1⟩, ha.2.2⟩
  | quitCheck t =>
    obtain ⟨ready, rfl⟩ := guard_met hn
    have before : Requested s := .inr ⟨t, by rw [ready]; rfl⟩
    split_ifs
    · exact (h before).keep rfl rfl id
    · exact (h before).keep rfl rfl id
  | quitWakeup t =>
    obtain ⟨ready, rfl⟩ := guard_met hn
    have before : Requested s := .inr ⟨t, by rw [ready]; rfl⟩
    exact (h before).keep rfl rfl fun _ => wakeup_pos _
  | _ =>
    obtain ⟨-, rfl⟩ := guard_met hn
    exact (h requested).advance rfl (by simp)

/-- In every run whose calls of `quit` are timely: once one has returned, `quit_` is true
and the loop thread is not blocked in `poll` with the eventfd counter at zero. -/
theorem quit_not_lost (h : (eventLoop loopThread).Reachable Timely s)
    (called : s.quitReturned = true) :
    s.quit_ = true ∧ ¬(s.loopPc = .polling ∧ s.wakeupFd_ = 0) := by
  have honoured : Requested s → Honoured s :=
    h.invariant (P := fun s => Requested s → Honoured s)
      (fun _ hi => by rw [hi]; simp [Requested, construct, isQuitting])
      fun _ _ _ hs ha hn => next_honoured hs ha hn
  have now := honoured (.inl called)
  refine ⟨now.quit, fun blocked => ?_⟩
  have awake := now.awake blocked.1
  omega

instance (s : EventLoop Θ φ) (a : Action Θ φ) : Decidable (Timely s a) := by
  cases a <;> unfold Timely <;> infer_instance

theorem quit_not_lost_handler :
    ∃ s : EventLoop Bool ℕ, (eventLoop true).Reachable Timely s ∧ s.quitReturned = true ∧
      s.loopPc = .test ∧ s.quit_ = true ∧ ¬(s.loopPc = .polling ∧ s.wakeupFd_ = 0) := by
  have run : ((eventLoop true).execute Timely (construct : EventLoop Bool ℕ)
      [.enter, .reset, .test, .poll false, .quit true, .quitCheck true, .quitWakeup true,
        .callPending, .swap, .endPending]).map (fun s => (s.quitReturned, s.loopPc)) =
      some (true, .test) := by decide +kernel
  obtain ⟨s, reached, ends⟩ := System.Reachable.of_replay rfl run
  simp only [Prod.mk.injEq] at ends
  exact ⟨s, reached, ends.1, ends.2, quit_not_lost reached ends.1⟩

/-- A `quit` before the reset of `loop()` is undone by it; a `quit` from another thread
while the loop is blocked in `poll` does not wake it up. -/
theorem quit_lost :
    (∃ s : EventLoop Bool ℕ, (eventLoop true).Reachable Any s ∧ s.quitReturned = true ∧
      s.loopPc ≠ .returned ∧ s.quit_ = false) ∧
    ∃ s : EventLoop Bool ℕ, (eventLoop true).Reachable Any s ∧ s.quitReturned = true ∧
      s.loopPc = .polling ∧ s.wakeupFd_ = 0 := by
  have undone : ((eventLoop true).execute Any (construct : EventLoop Bool ℕ)
      [.quit false, .quitCheck false, .enter, .reset]).map
      (fun s => (s.quitReturned, s.loopPc, s.quit_)) = some (true, .test, false) := by
    decide +kernel
  have asleep : ((eventLoop true).execute Any (construct : EventLoop Bool ℕ)
      [.enter, .reset, .test, .quit false, .quitCheck false]).map
      (fun s => (s.quitReturned, s.loopPc, s.wakeupFd_)) = some (true, .polling, 0) := by
    decide +kernel
  obtain ⟨s, reached, ends⟩ := System.Reachable.of_replay rfl undone
  obtain ⟨u, reached', ends'⟩ := System.Reachable.of_replay rfl asleep
  simp only [Prod.mk.injEq] at ends ends'
  refine ⟨⟨s, reached, ends.1, ?_, ends.2.2⟩, u, reached', ends'⟩
  simp [ends.2.1]

end Quitting

end EventLoop

end TinyNetwork

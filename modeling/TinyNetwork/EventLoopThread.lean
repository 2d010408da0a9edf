import TinyNetwork.LoopProgress

/-! The thread that owns an event loop, of `net/EventLoopThread.cc`: `startLoop` waits until the
new thread has published its loop, and the destructor quits the loop and joins the thread. The
`EventLoop` is a local variable of `threadFunc`, so it is gone when the thread has ended; the
`EventLoopThread` is gone when its destructor has returned. An access to either one after that
is recorded as a fault. Critical sections under `mutex_` are single steps, except the last one
of the thread, whose unlocking may come late. -/
namespace TinyNetwork
open Transition

/-- `threadFunc`: not started, before the constructor of its loop, in `callback_`, before the
publication, in `loop()`, holding `mutex_` with `loop_` cleared, before the destructor of its
loop, or ended. -/
inductive ThreadPc where
  | unstarted
  | constructing
  | callback
  | publishing
  | looping
  | unlocking
  | leaving
  | ended
  deriving DecidableEq

/-- The thread that owns the object: before `startLoop`, at its critical section, in
`cond_.wait`, back from it; past `exiting_ = true` in the destructor, before `loop_->quit()`,
past the store to `quit_`, before `join`, or back from the destructor. -/
inductive OwnerPc where
  | outside
  | testing
  | waiting
  | returned
  | exiting
  | quitting
  | inQuit
  | joining
  | destroyed
  deriving DecidableEq

def ThreadPc.built : ThreadPc → Bool
  | .callback => true
  | .publishing => true
  | .looping => true
  | .unlocking => true
  | .leaving => true
  | _ => false

def ThreadPc.early : ThreadPc → Bool
  | .constructing => true
  | .callback => true
  | .publishing => true
  | _ => false

def ThreadPc.late : ThreadPc → Bool
  | .unlocking => true
  | .leaving => true
  | .ended => true
  | _ => false

def OwnerPc.rank : OwnerPc → ℕ
  | .outside => 0
  | .testing => 1
  | .waiting => 1
  | .returned => 2
  | .exiting => 3
  | .quitting => 4
  | .inQuit => 5
  | .joining => 6
  | .destroyed => 7

/-- `nullLoop` is a call through a null `loop_`, `deadLoop` a read of `threadId_` in a destroyed
loop, and `deadThread` a use of `mutex_` after the destructor has returned. -/
inductive Fault where
  | nullLoop
  | deadLoop
  | deadThread
  deriving DecidableEq

/-- `loop_` says whether the pointer is set, and `loop` is the object it points to. -/
structure EventLoopThread (Θ φ : Type*) where
  loop_ : Bool
  exiting_ : Bool
  loop : Option (EventLoop Θ φ)
  threadPc : ThreadPc
  ownerPc : OwnerPc
  fault : Option Fault

namespace EventLoopThread

variable {Θ φ : Type*} [DecidableEq Θ]

def construct : EventLoopThread Θ φ where
  loop_ := false
  exiting_ := false
  loop := none
  threadPc := .unstarted
  ownerPc := .outside
  fault := none

/-- `loop a` is a step of the loop or of a call on it, by any thread that has the pointer;
`callback` is the end of `callback_`, and `wake` a spurious wake-up. -/
inductive Action (Θ φ : Type*) where
  | startLoop
  | test
  | wake
  | construct
  | callback
  | publish
  | loop (a : EventLoop.Action Θ φ)
  | clear
  | unlock
  | destroyLoop
  | exit
  | check
  | quit
  | quitCheck
  | join

def caller : EventLoop.Action Θ φ → Option Θ
  | .queueInLoop t _ => some t
  | .queueCheck t => some t
  | .queueWakeup t => some t
  | .quit t => some t
  | .quitCheck t => some t
  | .quitWakeup t => some t
  | _ => none

variable (loopThread owner : Θ)

/-- Who may take a step of the loop: its thread inside `loop()`, and inside `callback_` for
calls; the owner between `startLoop` and the destructor; any other thread. -/
def Permitted (s : EventLoopThread Θ φ) (a : EventLoop.Action Θ φ) : Prop :=
  match caller a with
  | none => s.threadPc = .looping
  | some t => (t = loopThread → s.threadPc = .looping ∨ s.threadPc = .callback) ∧
      (t = owner → s.ownerPc = .returned)

instance (s : EventLoopThread Θ φ) (a : EventLoop.Action Θ φ) :
    Decidable (Permitted loopThread owner s a) := by
  unfold Permitted
  split <;> infer_instance

def Back (s : EventLoopThread Θ φ) : Prop :=
  ∃ l ∈ s.loop, l.loopPc = .returned ∧ l.pc loopThread = .idle

instance (s : EventLoopThread Θ φ) : Decidable (Back loopThread s) := by
  unfold Back
  infer_instance

def next (s : EventLoopThread Θ φ) : Action Θ φ → Option (EventLoopThread Θ φ)
  | .startLoop =>
    if s.ownerPc = .outside then
      some { s with ownerPc := .testing, threadPc := .constructing }
    else none
  | .test =>
    if s.ownerPc = .testing ∧ s.threadPc ≠ .unlocking then
      some { s with ownerPc := if s.loop_ then .returned else .waiting }
    else none
  | .wake => if s.ownerPc = .waiting then some { s with ownerPc := .testing } else none
  | .construct =>
    if s.threadPc = .constructing then
      some { s with loop := some EventLoop.construct, threadPc := .callback }
    else none
  | .callback =>
    if s.threadPc = .callback ∧ ∃ l ∈ s.loop, l.pc loopThread = .idle then
      some { s with threadPc := .publishing }
    else none
  | .publish =>
    if s.threadPc = .publishing then
      -- `notify_one` reaches the only thread that ever waits
      some { s with
        loop_ := true
        threadPc := .looping
        ownerPc := if s.ownerPc = .waiting then .testing else s.ownerPc }
    else none
  | .loop a =>
    if Permitted loopThread owner s a then
      (s.loop.bind fun l => EventLoop.next loopThread l a).map fun l => { s with loop := some l }
    else none
  | .clear =>
    if s.threadPc = .looping ∧ Back loopThread s then
      some { s with
        loop_ := false
        threadPc := .unlocking
        fault := if s.ownerPc = .destroyed then some .deadThread else s.fault }
    else none
  | .unlock =>
    if s.threadPc = .unlocking then
      some { s with
        threadPc := .leaving
        fault := if s.ownerPc = .destroyed then some .deadThread else s.fault }
    else none
  | .destroyLoop =>
    if s.threadPc = .leaving then some { s with loop := none, threadPc := .ended } else none
  | .exit =>
    if s.ownerPc = .outside ∨ s.ownerPc = .returned then
      some { s with exiting_ := true, ownerPc := .exiting }
    else none
  | .check =>
    if s.ownerPc = .exiting then
      some { s with ownerPc := if s.loop_ then .quitting else .destroyed }
    else none
  | .quit =>
    if s.ownerPc = .quitting then
      if s.loop_ then
        (s.loop.bind fun l => EventLoop.next loopThread l (.quit owner)).map fun l =>
          { s with loop := some l, ownerPc := .inQuit }
      else some { s with fault := some .nullLoop }
    else none
  | .quitCheck =>
    if s.ownerPc = .inQuit then
      match s.loop with
      | none => some { s with ownerPc := .joining, fault := some .deadLoop }
      | some l => (EventLoop.next loopThread l (.quitCheck owner)).map fun l =>
          { s with loop := some l, ownerPc := .joining }
    else none
  | .join =>
    if s.ownerPc = .joining ∧ s.threadPc = .ended then some { s with ownerPc := .destroyed }
    else none

def eventLoopThread : System (EventLoopThread Θ φ) (Action Θ φ) where
  init s := s = construct
  next := next loopThread owner

variable {loopThread owner} {n : ℕ} {s u : EventLoopThread Θ φ} {l m : EventLoop Θ φ}

section Loops

structure Fresh (loopThread : Θ) (l : EventLoop Θ φ) : Prop where
  quit : l.quit_ = false
  inside : l.loopPc ≠ .returned
  idle : l.loopPc = .outside → l.pc loopThread = .idle

omit [DecidableEq Θ] in
theorem fresh_construct : Fresh loopThread (EventLoop.construct : EventLoop Θ φ) :=
  ⟨rfl, by simp [EventLoop.construct], fun _ => rfl⟩

theorem Fresh.goto {t : Θ} {p : CallPc} (h : Fresh loopThread l)
    (inside : t = loopThread → l.loopPc ≠ .outside) : Fresh loopThread (l.goto t p) := by
  refine ⟨h.quit, h.inside, fun outside => ?_⟩
  have other : loopThread ≠ t := fun same => inside same.symm outside
  rw [EventLoop.goto_other l other]
  exact h.idle outside

theorem Fresh.next {a : EventLoop.Action Θ φ} (h : Fresh loopThread l) (calm : ∀ t, a ≠ .quit t)
    (hn : EventLoop.next loopThread l a = some m) : Fresh loopThread m := by
  have called : ∀ {t : Θ} {p : CallPc}, l.pc t = p → p ≠ .idle → t = loopThread →
      l.loopPc ≠ .outside := by
    rintro t p at_ busy rfl outside
    exact busy (at_.symm.trans (h.idle outside))
  cases a with
  | test =>
    obtain ⟨-, rfl⟩ := guard_met hn
    exact ⟨by simp [h.quit], by simp [h.quit], by simp [h.quit]⟩
  | queueInLoop t f =>
    obtain ⟨ready, rfl⟩ := guard_met hn
    have moved : Fresh loopThread (l.goto t .inserted) := h.goto fun own outside => by
      rcases ready.2 own with handling | running
      · simp [outside] at handling
      · simp [outside] at running
    exact ⟨moved.quit, moved.inside, moved.idle⟩
  | queueCheck t =>
    obtain ⟨at_, rfl⟩ := guard_met hn
    exact h.goto (called at_ (by simp))
  | queueWakeup t =>
    obtain ⟨at_, rfl⟩ := guard_met hn
    have moved : Fresh loopThread (l.goto t .idle) := h.goto (called at_ (by simp))
    exact ⟨moved.quit, moved.inside, moved.idle⟩
  | quit t => exact absurd rfl (calm t)
  | quitCheck t =>
    obtain ⟨at_, rfl⟩ := guard_met hn
    split_ifs with own
    · exact h.goto (called at_ (by simp))
    · have moved : Fresh loopThread (l.goto t .idle) := h.goto fun same => absurd same own
      exact ⟨moved.quit, moved.inside, moved.idle⟩
  | quitWakeup t =>
    obtain ⟨at_, rfl⟩ := guard_met hn
    have moved : Fresh loopThread (l.goto t .idle) := h.goto (called at_ (by simp))
    exact ⟨moved.quit, moved.inside, moved.idle⟩
  | handleRead =>
    obtain ⟨ready, rfl⟩ := guard_met hn
    exact ⟨h.quit, h.inside, h.idle⟩
  | runFunctor =>
    obtain ⟨ready, rfl⟩ := guard_met hn
    exact ⟨h.quit, h.inside, h.idle⟩
  | reset =>
    obtain ⟨ready, rfl⟩ := guard_met hn
    exact ⟨rfl, by simp, by simp⟩
  | _ =>
    obtain ⟨ready, rfl⟩ := guard_met hn
    exact ⟨h.quit, by simp, by simp⟩

theorem call_place {a : EventLoop.Action Θ φ} {t : Θ} (call : caller a = some t)
    (hn : EventLoop.next loopThread l a = some m) : m.loopPc = l.loopPc := by
  cases a with
  | queueInLoop t f => obtain ⟨-, rfl⟩ := guard_met hn; rfl
  | queueCheck t => obtain ⟨-, rfl⟩ := guard_met hn; rfl
  | queueWakeup t => obtain ⟨-, rfl⟩ := guard_met hn; rfl
  | quit t => obtain ⟨-, rfl⟩ := guard_met hn; rfl
  | quitCheck t =>
    obtain ⟨-, rfl⟩ := guard_met hn
    split_ifs <;> rfl
  | quitWakeup t => obtain ⟨-, rfl⟩ := guard_met hn; rfl
  | _ => cases call

end Loops

section Invariant

def Untouched (n : ℕ) (s : EventLoopThread Θ φ) : Action Θ φ → Prop
  | .loop (.quit _) => n < s.ownerPc.rank
  | _ => True

instance (n : ℕ) (s : EventLoopThread Θ φ) (a : Action Θ φ) : Decidable (Untouched n s a) := by
  unfold Untouched
  split <;> infer_instance

structure Kept (loopThread : Θ) (n : ℕ) (s : EventLoopThread Θ φ) : Prop where
  built : s.loop.isSome = s.threadPc.built
  set : s.loop_ = true ↔ s.threadPc = .looping
  early : s.threadPc.early = true → s.ownerPc = .testing ∨ s.ownerPc = .waiting
  unstarted : s.threadPc = .unstarted →
    s.ownerPc = .outside ∨ s.ownerPc = .exiting ∨ s.ownerPc = .destroyed
  outside : s.ownerPc = .outside → s.threadPc = .unstarted
  waiting : s.ownerPc = .waiting → s.threadPc ≠ .looping
  entered : s.threadPc.early = true → ∀ l ∈ s.loop, l.loopPc = .outside
  fresh : s.ownerPc.rank ≤ n → s.threadPc.late = false ∧ ∀ l ∈ s.loop, Fresh loopThread l

omit [DecidableEq Θ] in
theorem kept_construct : Kept loopThread n (construct : EventLoopThread Θ φ) where
  built := rfl
  set := by simp [construct]
  early := by simp [construct, ThreadPc.early]
  unstarted _ := .inl rfl
  outside _ := rfl
  waiting := by simp [construct]
  entered := by simp [construct]
  fresh _ := ⟨rfl, by simp [construct]⟩

theorem Kept.loop {a : EventLoop.Action Θ φ} (h : Kept loopThread n s) (now : l ∈ s.loop)
    (permitted : Permitted loopThread owner s a) (calm : s.ownerPc.rank ≤ n → ∀ t, a ≠ .quit t)
    (hn : EventLoop.next loopThread l a = some m) :
    Kept loopThread n { s with loop := some m } where
  built := by simpa [Option.mem_def.mp now] using h.built
  set := h.set
  early := h.early
  unstarted := h.unstarted
  outside := h.outside
  waiting := h.waiting
  entered early k hk := by
    obtain rfl := Option.some.inj hk
    have place := h.entered early l now
    unfold Permitted at permitted
    split at permitted
    · have looping : s.threadPc = .looping := permitted
      simp [looping, ThreadPc.early] at early
    · rename_i call
      exact (call_place call hn).trans place
  fresh before := by
    obtain ⟨up, fresh⟩ := h.fresh before
    refine ⟨up, fun k hk => ?_⟩
    obtain rfl := Option.some.inj hk
    exact (fresh l now).next (calm before) hn

omit [DecidableEq Θ] in
theorem Kept.begun (h : Kept loopThread n s) (started : s.threadPc ≠ .unstarted) :
    s.ownerPc ≠ .outside := fun out => started (h.outside out)

theorem Kept.startLoop (h : Kept loopThread n s)
    (hn : EventLoopThread.next loopThread owner s .startLoop = some u) : Kept loopThread n u := by
  obtain ⟨built, set, early, unstarted, outside, waiting, entered, fresh⟩ := h
  obtain ⟨at_, rfl⟩ := guard_met hn
  have idle := outside at_
  simp only [idle, ThreadPc.built, Option.isSome_eq_false_iff, Option.isNone_iff_eq_none] at built
  exact ⟨by simp [built, ThreadPc.built], by simpa [idle] using set, fun _ => .inl rfl,
    by simp, by simp, by simp, by simp [built], fun _ => ⟨rfl, by simp [built]⟩⟩

theorem Kept.test (h : Kept loopThread n s)
    (hn : EventLoopThread.next loopThread owner s .test = some u) : Kept loopThread n u := by
  obtain ⟨built, set, early, unstarted, outside, waiting, entered, fresh⟩ := h
  obtain ⟨⟨at_, -⟩, rfl⟩ := guard_met hn
  rw [at_] at early unstarted outside waiting fresh
  refine ⟨built, set, fun up => ?_, fun idle => ?_, ?_, ?_, entered, fun before => ?_⟩
  · have unset : s.loop_ = false := by
      rw [Bool.eq_false_iff, ne_eq, set]
      rintro looping
      simp [looping, ThreadPc.early] at up
    exact .inr (by simp [unset])
  · simp at unstarted
    exact absurd idle unstarted
  · split_ifs <;> simp
  · split_ifs with published
    · simp
    · exact fun _ looping => published (set.mpr looping)
  · exact fresh (Nat.le_trans (by split_ifs <;> simp [OwnerPc.rank]) before)

theorem Kept.wake (h : Kept loopThread n s)
    (hn : EventLoopThread.next loopThread owner s .wake = some u) : Kept loopThread n u := by
  obtain ⟨built, set, early, unstarted, outside, waiting, entered, fresh⟩ := h
  obtain ⟨at_, rfl⟩ := guard_met hn
  rw [at_] at early unstarted outside waiting fresh
  exact ⟨built, set, fun _ => .inl rfl, fun idle => absurd idle (by simpa using unstarted),
    by simp, by simp, entered, fresh⟩

theorem Kept.construct (h : Kept loopThread n s)
    (hn : EventLoopThread.next loopThread owner s .construct = some u) : Kept loopThread n u := by
  have begun := h.begun
  obtain ⟨built, set, early, unstarted, outside, waiting, entered, fresh⟩ := h
  obtain ⟨at_, rfl⟩ := guard_met hn
  refine ⟨rfl, by simpa [at_] using set, fun _ => early (by simp [at_, ThreadPc.early]),
    by simp, fun out => ?_, by simp, fun _ l hl => ?_, fun before => ⟨rfl, fun l hl => ?_⟩⟩
  · exact absurd out (begun (by simp [at_]))
  · obtain rfl := Option.some.inj hl
    rfl
  · obtain rfl := Option.some.inj hl
    exact fresh_construct

theorem Kept.callback (h : Kept loopThread n s)
    (hn : EventLoopThread.next loopThread owner s .callback = some u) : Kept loopThread n u := by
  have begun := h.begun
  obtain ⟨built, set, early, unstarted, outside, waiting, entered, fresh⟩ := h
  obtain ⟨⟨at_, -⟩, rfl⟩ := guard_met hn
  have up : s.threadPc.early = true := by simp [at_, ThreadPc.early]
  refine ⟨by simpa [at_, ThreadPc.built] using built, by simpa [at_] using set,
    fun _ => early up, by simp, fun out => ?_, by simp, fun _ => entered up,
    fun before => ⟨rfl, (fresh before).2⟩⟩
  exact absurd out (begun (by simp [at_]))

theorem Kept.publish (h : Kept loopThread n s)
    (hn : EventLoopThread.next loopThread owner s .publish = some u) : Kept loopThread n u := by
  obtain ⟨built, set, early, unstarted, outside, waiting, entered, fresh⟩ := h
  obtain ⟨at_, rfl⟩ := guard_met hn
  have inside := early (by simp [at_, ThreadPc.early])
  refine ⟨by simpa [at_, ThreadPc.built] using built, by simp, by simp [ThreadPc.early], by simp,
    ?_, ?_, by simp [ThreadPc.early], fun before => ⟨rfl, (fresh ?_).2⟩⟩
  · rcases inside with test | wait
    · simp [test]
    · simp [wait]
  · rcases inside with test | wait
    · simp [test]
    · simp [wait]
  · rcases inside with test | wait
    · simpa [test] using before
    · simpa [wait, OwnerPc.rank] using before

theorem Kept.clear (h : Kept loopThread n s)
    (hn : EventLoopThread.next loopThread owner s .clear = some u) : Kept loopThread n u := by
  have begun := h.begun
  obtain ⟨built, set, early, unstarted, outside, waiting, entered, fresh⟩ := h
  obtain ⟨⟨at_, l, now, back, -⟩, rfl⟩ := guard_met hn
  refine ⟨by simpa [at_, ThreadPc.built] using built, by simp, by simp [ThreadPc.early], by simp,
    fun out => ?_, by simp, by simp [ThreadPc.early], fun before => ?_⟩
  · exact absurd out (begun (by simp [at_]))
  · exact absurd back ((fresh before).2 l now).inside

theorem Kept.unlock (h : Kept loopThread n s)
    (hn : EventLoopThread.next loopThread owner s .unlock = some u) : Kept loopThread n u := by
  have begun := h.begun
  obtain ⟨built, set, early, unstarted, outside, waiting, entered, fresh⟩ := h
  obtain ⟨at_, rfl⟩ := guard_met hn
  refine ⟨by simpa [at_, ThreadPc.built] using built, by simpa [at_] using set,
    by simp [ThreadPc.early], by simp, fun out => ?_, by simp, by simp [ThreadPc.early],
    fun before => ?_⟩
  · exact absurd out (begun (by simp [at_]))
  · simpa [at_, ThreadPc.late] using (fresh before).1

theorem Kept.destroyLoop (h : Kept loopThread n s)
    (hn : EventLoopThread.next loopThread owner s .destroyLoop = some u) : Kept loopThread n u := by
  have begun := h.begun
  obtain ⟨built, set, early, unstarted, outside, waiting, entered, fresh⟩ := h
  obtain ⟨at_, rfl⟩ := guard_met hn
  refine ⟨rfl, by simpa [at_] using set, by simp [ThreadPc.early], by simp, fun out => ?_,
    by simp, by simp, fun before => ?_⟩
  · exact absurd out (begun (by simp [at_]))
  · simpa [at_, ThreadPc.late] using (fresh before).1

theorem Kept.exit (h : Kept loopThread n s)
    (hn : EventLoopThread.next loopThread owner s .exit = some u) : Kept loopThread n u := by
  obtain ⟨built, set, early, unstarted, outside, waiting, entered, fresh⟩ := h
  obtain ⟨at_, rfl⟩ := guard_met hn
  refine ⟨built, set, fun up => ?_, fun _ => .inr (.inl rfl), by simp, by simp, entered,
    fun before => fresh (Nat.le_trans ?_ before)⟩
  · rcases early up with test | wait
    · simp [test] at at_
    · simp [wait] at at_
  · rcases at_ with out | back
    · simp [out, OwnerPc.rank]
    · simp [back, OwnerPc.rank]

theorem Kept.check (h : Kept loopThread n s)
    (hn : EventLoopThread.next loopThread owner s .check = some u) : Kept loopThread n u := by
  obtain ⟨built, set, early, unstarted, outside, waiting, entered, fresh⟩ := h
  obtain ⟨at_, rfl⟩ := guard_met hn
  refine ⟨built, set, fun up => ?_, fun idle => ?_, ?_, ?_, entered,
    fun before => fresh (Nat.le_trans ?_ before)⟩
  · simp [at_] at early
    exact absurd up (by simp [early])
  · have unset : s.loop_ = false := by
      rw [Bool.eq_false_iff, ne_eq, set, idle]
      simp
    exact .inr (.inr (by simp [unset]))
  · split_ifs <;> simp
  · split_ifs <;> simp
  · rw [at_]
    split_ifs <;> simp [OwnerPc.rank]

theorem Kept.quit (le : n ≤ 4) (h : Kept loopThread n s)
    (hn : EventLoopThread.next loopThread owner s .quit = some u) : Kept loopThread n u := by
  obtain ⟨built, set, early, unstarted, outside, waiting, entered, fresh⟩ := h
  obtain ⟨at_, hn⟩ := Option.ite_none_right_eq_some.mp hn
  split_ifs at hn with published
  · obtain ⟨m, taken, rfl⟩ := Option.map_eq_some_iff.mp hn
    obtain ⟨l, now, taken⟩ := Option.bind_eq_some_iff.mp taken
    have looping := set.mp published
    refine ⟨by simp [looping, ThreadPc.built], set, by simp [looping, ThreadPc.early],
      by simp [looping], by simp, by simp, by simp [looping, ThreadPc.early], fun before => ?_⟩
    exact absurd before (by simp only [OwnerPc.rank]; omega)
  · cases hn
    exact ⟨built, set, early, unstarted, outside, waiting, entered, fresh⟩

theorem Kept.quitCheck (le : n ≤ 4) (h : Kept loopThread n s)
    (hn : EventLoopThread.next loopThread owner s .quitCheck = some u) : Kept loopThread n u := by
  obtain ⟨built, set, early, unstarted, outside, waiting, entered, fresh⟩ := h
  obtain ⟨at_, hn⟩ := Option.ite_none_right_eq_some.mp hn
  have up : s.threadPc.early = false := by
    simpa [at_] using early
  have past : ¬OwnerPc.joining.rank ≤ n := by
    simp only [OwnerPc.rank]
    omega
  have started : s.threadPc ≠ .unstarted := fun idle => by simpa [at_] using unstarted idle
  split at hn
  · cases hn
    exact ⟨built, set, by simp [up], fun idle => absurd idle started, by simp, by simp,
      by simp [up], fun before => absurd before past⟩
  · rename_i l now
    obtain ⟨m, -, rfl⟩ := Option.map_eq_some_iff.mp hn
    rw [now] at built
    exact ⟨built, set, by simp [up], fun idle => absurd idle started, by simp, by simp,
      by simp [up], fun before => absurd before past⟩

theorem Kept.join (le : n ≤ 4) (h : Kept loopThread n s)
    (hn : EventLoopThread.next loopThread owner s .join = some u) : Kept loopThread n u := by
  obtain ⟨built, set, early, unstarted, outside, waiting, entered, fresh⟩ := h
  obtain ⟨⟨at_, gone⟩, rfl⟩ := guard_met hn
  refine ⟨built, set, by simp [gone, ThreadPc.early], by simp [gone], by simp, by simp,
    by simp [gone, ThreadPc.early], fun before => ?_⟩
  exact absurd before (by simp only [OwnerPc.rank]; omega)

theorem Kept.next {a : Action Θ φ} (le : n ≤ 4) (h : Kept loopThread n s) (ok : Untouched n s a)
    (hn : next loopThread owner s a = some u) : Kept loopThread n u := by
  cases a with
  | startLoop => exact h.startLoop hn
  | test => exact h.test hn
  | wake => exact h.wake hn
  | construct => exact h.construct hn
  | callback => exact h.callback hn
  | publish => exact h.publish hn
  | loop a =>
    obtain ⟨permitted, hn⟩ := Option.ite_none_right_eq_some.mp hn
    obtain ⟨m, taken, rfl⟩ := Option.map_eq_some_iff.mp hn
    obtain ⟨l, now, taken⟩ := Option.bind_eq_some_iff.mp taken
    refine h.loop now permitted (fun before t quits => ?_) taken
    subst quits
    exact absurd before (Nat.not_le_of_lt ok)
  | clear => exact h.clear hn
  | unlock => exact h.unlock hn
  | destroyLoop => exact h.destroyLoop hn
  | exit => exact h.exit hn
  | check => exact h.check hn
  | quit => exact h.quit le hn
  | quitCheck => exact h.quitCheck le hn
  | join => exact h.join le hn

omit [DecidableEq Θ] in
theorem Kept.placed (h : Kept loopThread n s) (before : s.ownerPc.rank ≤ n)
    (past : s.ownerPc ≠ .testing ∧ s.ownerPc ≠ .waiting) :
    s.threadPc = .unstarted ∨ s.threadPc = .looping := by
  have up := (h.fresh before).1
  have early : s.threadPc.early ≠ true := fun early =>
    (h.early early).elim past.1 past.2
  cases place : s.threadPc with
  | unstarted => exact .inl rfl
  | looping => exact .inr rfl
  | constructing => exact absurd (by rw [place]; rfl) early
  | callback => exact absurd (by rw [place]; rfl) early
  | publishing => exact absurd (by rw [place]; rfl) early
  | _ =>
    rw [place] at up
    cases up

theorem kept (le : n ≤ 4) (h : (eventLoopThread loopThread owner).Reachable (Untouched n) s) :
    Kept loopThread n s :=
  h.invariant (P := Kept loopThread n) (fun _ hi => hi ▸ kept_construct)
    fun _ _ _ hs ok hn => hs.next le ok hn

end Invariant

section Start

def Starting (_ : EventLoopThread Θ φ) : Action Θ φ → Prop
  | .construct => True
  | .callback => True
  | .publish => True
  | .test => True
  | _ => False

theorem looping_returns (h : Kept loopThread 1 s) (at_ : s.ownerPc = .testing)
    (looping : s.threadPc = .looping) :
    ∃ u, (eventLoopThread loopThread owner).Path Starting s u ∧ u.ownerPc = .returned := by
  have tested : next loopThread owner s .test = some { s with ownerPc := .returned } :=
    (if_pos ⟨at_, by simp [looping]⟩).trans (by simp [h.set.mpr looping])
  exact ⟨_, .single (a := .test) trivial tested, rfl⟩

theorem publishing_returns (h : Kept loopThread 1 s) (at_ : s.threadPc = .publishing) :
    ∃ u, (eventLoopThread loopThread owner).Path Starting s u ∧ u.ownerPc = .returned := by
  have published : next loopThread owner s .publish = some { s with
      loop_ := true
      threadPc := .looping
      ownerPc := if s.ownerPc = .waiting then .testing else s.ownerPc } := if_pos at_
  have kept := h.next (by decide) (a := .publish) trivial published
  have testing : (if s.ownerPc = .waiting then OwnerPc.testing else s.ownerPc) = .testing := by
    rcases h.early (by simp [at_, ThreadPc.early]) with test | wait
    · simp [test]
    · simp [wait]
  obtain ⟨u, run, back⟩ := looping_returns kept testing rfl
  exact ⟨u, (System.Path.single (a := .publish) trivial published).trans run, back⟩

theorem callback_returns (h : Kept loopThread 1 s) (at_ : s.threadPc = .callback) :
    ∃ u, (eventLoopThread loopThread owner).Path Starting s u ∧ u.ownerPc = .returned := by
  obtain ⟨l, now⟩ := Option.isSome_iff_exists.mp (h.built.trans (by simp [at_, ThreadPc.built]))
  have early : s.threadPc.early = true := by simp [at_, ThreadPc.early]
  have inside : s.ownerPc.rank ≤ 1 := by
    rcases h.early early with test | wait
    · simp [test, OwnerPc.rank]
    · simp [wait, OwnerPc.rank]
  have idle := ((h.fresh inside).2 l now).idle (h.entered early l now)
  have ended : next loopThread owner s .callback = some { s with threadPc := .publishing } :=
    if_pos ⟨at_, l, now, idle⟩
  obtain ⟨u, run, back⟩ := publishing_returns
    (h.next (by decide) (a := .callback) trivial ended) rfl
  exact ⟨u, (System.Path.single (a := .callback) trivial ended).trans run, back⟩

theorem starting_returns (h : Kept loopThread 1 s)
    (inside : s.ownerPc = .testing ∨ s.ownerPc = .waiting) :
    ∃ u, (eventLoopThread loopThread owner).Path Starting s u ∧ u.ownerPc = .returned := by
  have up : s.threadPc.late = false := (h.fresh (by rcases inside with at_ | at_ <;> simp [at_,
    OwnerPc.rank])).1
  cases at_ : s.threadPc with
  | unstarted =>
    rcases inside with test | wait
    · simpa [test] using h.unstarted at_
    · simpa [wait] using h.unstarted at_
  | constructing =>
    have built : next loopThread owner s .construct = some
        { s with loop := some EventLoop.construct, threadPc := .callback } := if_pos at_
    obtain ⟨u, run, back⟩ := callback_returns
      (h.next (by decide) (a := .construct) trivial built) rfl
    exact ⟨u, (System.Path.single (a := .construct) trivial built).trans run, back⟩
  | callback => exact callback_returns h at_
  | publishing => exact publishing_returns h at_
  | looping =>
    exact looping_returns h (inside.resolve_right fun wait => h.waiting wait at_) at_
  | _ => simp [at_, ThreadPc.late] at up

/-- While nobody else has quit the loop before `startLoop` has returned: the owner waits only for
a loop that is not published, it gets one that its thread has constructed and published, with
`callback_` behind it and `quit_` unset, and it always can get it. The thread may not have entered
`loop()` yet. -/
theorem startLoop_hands_over
    (h : (eventLoopThread loopThread owner).Reachable (Untouched 1) s) :
    (s.ownerPc = .waiting → s.loop_ = false) ∧
    (∀ u, next loopThread owner s .test = some u → u.ownerPc = .returned →
      u.threadPc = .looping ∧ ∃ l ∈ u.loop, l.loopPc ≠ .returned ∧ l.quit_ = false) ∧
    (s.ownerPc = .testing ∨ s.ownerPc = .waiting →
      ∃ u, (eventLoopThread loopThread owner).Path Starting s u ∧ u.ownerPc = .returned) := by
  have kept := kept (by decide) h
  refine ⟨fun wait => ?_, fun u hn back => ?_, fun inside => starting_returns kept inside⟩
  · rw [Bool.eq_false_iff, ne_eq, kept.set]
    exact kept.waiting wait
  · obtain ⟨⟨at_, -⟩, rfl⟩ := guard_met hn
    have published : s.loop_ = true := by
      by_contra unset
      simp [unset] at back
    have looping := kept.set.mp published
    obtain ⟨l, now⟩ :=
      Option.isSome_iff_exists.mp (kept.built.trans (by simp [looping, ThreadPc.built]))
    have fresh := (kept.fresh (by simp [at_, OwnerPc.rank])).2 l now
    exact ⟨looping, l, now, fresh.inside, fresh.quit⟩

/-- The owner waits, and the new thread is about to publish its loop. -/
theorem startLoop_hands_over_waiting :
    ∃ s : EventLoopThread Bool ℕ, (eventLoopThread true false).Reachable (Untouched 1) s ∧
      (s.ownerPc, s.threadPc) = (.waiting, .publishing) ∧
      (s.ownerPc = .waiting → s.loop_ = false) ∧
      (∀ u, next true false s .test = some u → u.ownerPc = .returned →
        u.threadPc = .looping ∧ ∃ l ∈ u.loop, l.loopPc ≠ .returned ∧ l.quit_ = false) ∧
      (s.ownerPc = .testing ∨ s.ownerPc = .waiting →
        ∃ u, (eventLoopThread true false).Path Starting s u ∧ u.ownerPc = .returned) := by
  have run : ((eventLoopThread true false).execute (Untouched 1)
      (construct : EventLoopThread Bool ℕ)
      [.startLoop, .construct, .test, .callback]).map (fun s => (s.ownerPc, s.threadPc)) =
      some (.waiting, .publishing) := by decide +kernel
  obtain ⟨s, reached, ends⟩ := System.Reachable.of_replay rfl run
  exact ⟨s, reached, ends, startLoop_hands_over reached⟩

/-- A functor that quits the loop before `startLoop` has looked leaves the owner waiting for
ever. -/
theorem startLoop_misses : ∃ s : EventLoopThread Bool ℕ,
    (eventLoopThread true false).Reachable Any s ∧
      (s.ownerPc, s.threadPc, s.loop_) = (.waiting, .ended, false) := by
  have run : ((eventLoopThread true false).execute Any (construct : EventLoopThread Bool ℕ)
      [.startLoop, .construct, .callback, .publish, .loop .enter, .loop .reset, .loop .test,
        .loop (.poll false), .loop (.quit true), .loop (.quitCheck true),
        .loop (.quitWakeup true), .loop .callPending, .loop .swap, .loop .endPending,
        .loop .test, .clear, .unlock, .destroyLoop, .test]).map
      (fun s => (s.ownerPc, s.threadPc, s.loop_)) = some (.waiting, .ended, false) := by
    decide +kernel
  exact System.Reachable.of_replay rfl run

end Start

section Destruction

structure Clean (s : EventLoopThread Θ φ) : Prop where
  fault : s.fault = none ∨
    s.fault = some .deadLoop ∧ (s.ownerPc = .joining ∨ s.ownerPc = .destroyed)
  gone : s.ownerPc = .destroyed → s.threadPc = .unstarted ∨ s.threadPc = .ended

theorem Clean.next {a : Action Θ φ} (kept : Kept loopThread 4 s) (h : Clean s)
    (hn : next loopThread owner s a = some u) : Clean u := by
  obtain ⟨fault, gone⟩ := h
  have alone : s.threadPc ≠ .unstarted → s.threadPc ≠ .ended → s.ownerPc ≠ .destroyed :=
    fun started running back => by rcases gone back with idle | done <;> contradiction
  -- only the destructor's last read of the loop can have gone wrong
  have before : s.ownerPc ≠ .joining → s.ownerPc ≠ .destroyed → s.fault = none :=
    fun unjoined inside => fault.resolve_right fun late => late.2.elim unjoined inside
  cases a with
  | startLoop =>
    obtain ⟨at_, rfl⟩ := guard_met hn
    exact ⟨.inl (before (by simp [at_]) (by simp [at_])), by simp⟩
  | test =>
    obtain ⟨⟨at_, -⟩, rfl⟩ := guard_met hn
    exact ⟨.inl (before (by simp [at_]) (by simp [at_])), by split_ifs <;> simp⟩
  | wake =>
    obtain ⟨at_, rfl⟩ := guard_met hn
    exact ⟨.inl (before (by simp [at_]) (by simp [at_])), by simp⟩
  | construct =>
    obtain ⟨at_, rfl⟩ := guard_met hn
    exact ⟨fault, fun back => absurd back (alone (by simp [at_]) (by simp [at_]))⟩
  | callback =>
    obtain ⟨⟨at_, -⟩, rfl⟩ := guard_met hn
    exact ⟨fault, fun back => absurd back (alone (by simp [at_]) (by simp [at_]))⟩
  | publish =>
    obtain ⟨at_, rfl⟩ := guard_met hn
    have away := alone (by simp [at_]) (by simp [at_])
    have inside := kept.early (by simp [at_, ThreadPc.early])
    refine ⟨.inl (before (fun late => ?_) away), by split_ifs <;> simp [away]⟩
    simp [late] at inside
  | loop a =>
    obtain ⟨-, hn⟩ := Option.ite_none_right_eq_some.mp hn
    obtain ⟨m, -, rfl⟩ := Option.map_eq_some_iff.mp hn
    exact ⟨fault, gone⟩
  | clear =>
    obtain ⟨⟨at_, -⟩, rfl⟩ := guard_met hn
    have away := alone (by simp [at_]) (by simp [at_])
    exact ⟨by simpa [away] using fault, by simp [away]⟩
  | unlock =>
    obtain ⟨at_, rfl⟩ := guard_met hn
    have away := alone (by simp [at_]) (by simp [at_])
    exact ⟨by simpa [away] using fault, by simp [away]⟩
  | destroyLoop =>
    obtain ⟨-, rfl⟩ := guard_met hn
    exact ⟨fault, fun _ => .inr rfl⟩
  | exit =>
    obtain ⟨at_, rfl⟩ := guard_met hn
    refine ⟨.inl (before (fun late => ?_) fun late => ?_), by simp⟩ <;> simp [late] at at_
  | check =>
    obtain ⟨at_, rfl⟩ := guard_met hn
    refine ⟨.inl (before (by simp [at_]) (by simp [at_])), fun back => .inl ?_⟩
    refine (kept.placed (by simp [at_, OwnerPc.rank]) (by simp [at_])).resolve_right
      fun looping => ?_
    simp [kept.set.mpr looping] at back
  | quit =>
    obtain ⟨at_, hn⟩ := Option.ite_none_right_eq_some.mp hn
    split_ifs at hn with published
    · obtain ⟨m, -, rfl⟩ := Option.map_eq_some_iff.mp hn
      exact ⟨.inl (before (by simp [at_]) (by simp [at_])), by simp⟩
    · have idle := (kept.placed (by simp [at_, OwnerPc.rank]) (by simp [at_])).resolve_right
        fun looping => published (kept.set.mpr looping)
      simpa [at_] using kept.unstarted idle
  | quitCheck =>
    obtain ⟨at_, hn⟩ := Option.ite_none_right_eq_some.mp hn
    split at hn
    · cases hn
      exact ⟨.inr ⟨rfl, .inl rfl⟩, by simp⟩
    · obtain ⟨m, -, rfl⟩ := Option.map_eq_some_iff.mp hn
      exact ⟨.inl (before (by simp [at_]) (by simp [at_])), by simp⟩
  | join =>
    obtain ⟨⟨-, done⟩, rfl⟩ := guard_met hn
    exact ⟨fault.imp_right fun late => ⟨late.1, .inr rfl⟩, fun _ => .inr done⟩

theorem clean (h : (eventLoopThread loopThread owner).Reachable (Untouched 4) s) : Clean s :=
  h.invariant_under (I := Kept loopThread 4) (P := Clean) (fun _ => kept (Nat.le_refl 4))
    (fun _ hi => hi ▸ ⟨.inl rfl, by simp [construct]⟩)
    fun _ _ _ known hs _ hn => hs.next known hn

/-- While nobody else quits the loop before the destructor does: an owner that is back from
`startLoop` has a loop that runs, and its destructor quits that very loop; the only access of it
that can come too late is the read of `threadId_` behind the store, and it does exactly when the
thread has ended in the meantime; once the destructor has returned nothing of the thread is left. -/
theorem destructor_quiet (h : (eventLoopThread loopThread owner).Reachable (Untouched 4) s) :
    (s.ownerPc = .returned ∨ s.ownerPc = .quitting →
      s.loop_ = true ∧ ∃ l ∈ s.loop, l.loopPc ≠ .returned) ∧
    (s.fault ≠ some .nullLoop ∧ s.fault ≠ some .deadThread) ∧
    (∀ u, next loopThread owner s .quitCheck = some u →
      (u.fault = some .deadLoop ↔ s.threadPc = .ended)) ∧
    (s.ownerPc = .destroyed → s.loop = none ∧ (s.threadPc = .unstarted ∨ s.threadPc = .ended)) := by
  have kept := kept (Nat.le_refl 4) h
  obtain ⟨fault, gone⟩ := clean h
  refine ⟨fun inside => ?_, ?_, fun u hn => ?_, fun back => ⟨?_, gone back⟩⟩
  · have before : s.ownerPc.rank ≤ 4 := by rcases inside with at_ | at_ <;> simp [at_, OwnerPc.rank]
    have looping : s.threadPc = .looping := by
      refine (kept.placed before ?_).resolve_left fun idle => ?_
      · rcases inside with at_ | at_ <;> simp [at_]
      · have apart := kept.unstarted idle
        rcases inside with at_ | at_ <;> simp [at_] at apart
    obtain ⟨l, now⟩ :=
      Option.isSome_iff_exists.mp (kept.built.trans (by simp [looping, ThreadPc.built]))
    exact ⟨kept.set.mpr looping, l, now, ((kept.fresh before).2 l now).inside⟩
  · rcases fault with none | late
    · simp [none]
    · simp [late.1]
  · obtain ⟨at_, hn⟩ := Option.ite_none_right_eq_some.mp hn
    have early := kept.early
    have unstarted := kept.unstarted
    have built := kept.built
    split at hn
    · rename_i destroyed
      cases hn
      rw [destroyed] at built
      cases place : s.threadPc <;> simp_all [ThreadPc.built, ThreadPc.early]
    · rename_i l now
      obtain ⟨m, -, rfl⟩ := Option.map_eq_some_iff.mp hn
      have none : s.fault = none := fault.resolve_right fun late => by simp [at_] at late
      rw [now] at built
      refine ⟨fun late => by simp [none] at late, fun ended => ?_⟩
      simp [ended, ThreadPc.built] at built
  · have built := kept.built
    rcases gone back with idle | done
    · simpa [idle, ThreadPc.built] using built
    · simpa [done, ThreadPc.built] using built

theorem destructor_quiet_late : ∃ s : EventLoopThread Bool ℕ,
    (eventLoopThread true false).Reachable (Untouched 4) s ∧
      (s.ownerPc, s.threadPc) = (.inQuit, .ended) ∧
      (∀ u, next true false s .quitCheck = some u →
        (u.fault = some .deadLoop ↔ s.threadPc = .ended)) := by
  have run : ((eventLoopThread true false).execute (Untouched 4)
      (construct : EventLoopThread Bool ℕ)
      [.startLoop, .construct, .callback, .publish, .test, .loop .enter, .loop .reset, .exit,
        .check, .quit, .loop .test, .clear, .unlock, .destroyLoop]).map
      (fun s => (s.ownerPc, s.threadPc)) = some (.inQuit, .ended) := by decide +kernel
  obtain ⟨s, reached, ends⟩ := System.Reachable.of_replay rfl run
  exact ⟨s, reached, ends, (destructor_quiet reached).2.2.1⟩

/-- A loop that somebody else quits takes its pointer back between the destructor's two reads. -/
theorem destructor_meets_null : ∃ s : EventLoopThread Bool ℕ,
    (eventLoopThread true false).Reachable Any s ∧ s.fault = some .nullLoop := by
  have run : ((eventLoopThread true false).execute Any (construct : EventLoopThread Bool ℕ)
      [.startLoop, .construct, .callback, .publish, .test, .loop .enter, .loop .reset, .exit,
        .check, .loop .test, .loop (.poll false), .loop (.quit true), .loop (.quitCheck true),
        .loop (.quitWakeup true), .loop .callPending, .loop .swap, .loop .endPending,
        .loop .test, .clear, .quit]).map (fun s => s.fault) = some (some .nullLoop) := by
    decide +kernel
  exact System.Reachable.of_replay rfl run

end Destruction

section Join
open LoopProgress

theorem loop_lifts (apart : owner ≠ loopThread) (looping : s.threadPc = .looping)
    (run : (EventLoop.eventLoop loopThread).Path (Settling (· = loopThread)) l m)
    (now : s.loop = some l) :
    (eventLoopThread loopThread owner).Path (Untouched 7) s { s with loop := some m } := by
  induction run with
  | refl =>
    rw [← now]
    exact .refl s
  | @tail k m _ taken ih =>
    obtain ⟨a, settles, hn⟩ := taken
    have permitted : Permitted loopThread owner { s with loop := some k } a := by
      unfold Permitted
      split
      · exact looping
      · rename_i t call
        have own : t = loopThread := by
          cases a <;> simp only [caller, Option.some.injEq, reduceCtorEq] at call <;>
            first
              | exact settles.elim
              | exact call ▸ settles
        exact ⟨fun _ => .inl looping, fun same => absurd (same.symm.trans own) apart⟩
    have calm : Untouched 7 { s with loop := some k } (.loop a) := by
      cases a with
      | quit t => exact settles.elim
      | _ => trivial
    have moved : next loopThread owner { s with loop := some k } (.loop a) =
        some { s with loop := some m } := by
      simp only [next, if_pos permitted, Option.bind_some]
      exact congrArg (Option.map _) hn
    exact ih.tail calm moved

theorem late_joins (late : s.threadPc.late = true) (at_ : s.ownerPc = .joining) :
    ∃ u, (eventLoopThread loopThread owner).Path (Untouched 7) s u ∧ u.ownerPc = .destroyed := by
  have ended : ∀ s : EventLoopThread Θ φ, s.threadPc = .ended → s.ownerPc = .joining →
      ∃ u, (eventLoopThread loopThread owner).Path (Untouched 7) s u ∧
        u.ownerPc = .destroyed := fun s done at_ =>
    ⟨{ s with ownerPc := .destroyed }, .single (a := .join) trivial (if_pos ⟨at_, done⟩), rfl⟩
  have leaving : ∀ s : EventLoopThread Θ φ, s.threadPc = .leaving → s.ownerPc = .joining →
      ∃ u, (eventLoopThread loopThread owner).Path (Untouched 7) s u ∧
        u.ownerPc = .destroyed := fun s place at_ => by
    have destroyed : next loopThread owner s .destroyLoop =
        some { s with loop := none, threadPc := .ended } := if_pos place
    obtain ⟨u, run, back⟩ := ended { s with loop := none, threadPc := .ended } rfl at_
    exact ⟨u, (System.Path.single (a := .destroyLoop) trivial destroyed).trans run, back⟩
  cases place : s.threadPc with
  | ended => exact ended s place at_
  | leaving => exact leaving s place at_
  | unlocking =>
    have unlocked : next loopThread owner s .unlock = some { s with
        threadPc := .leaving
        fault := if s.ownerPc = .destroyed then some .deadThread else s.fault } := if_pos place
    obtain ⟨u, run, back⟩ := leaving { s with
      threadPc := .leaving
      fault := if s.ownerPc = .destroyed then some .deadThread else s.fault } rfl at_
    exact ⟨u, (System.Path.single (a := .unlock) trivial unlocked).trans run, back⟩
  | _ =>
    rw [place] at late
    cases late

theorem looping_joins (apart : owner ≠ loopThread) (looping : s.threadPc = .looping)
    (at_ : s.ownerPc = .joining) (now : s.loop = some l) (stops : ¬GoesOn l) :
    ∃ u, (eventLoopThread loopThread owner).Path (Untouched 7) s u ∧ u.ownerPc = .destroyed := by
  obtain ⟨m, run, back, idle⟩ :=
    quit_leaves (T := (· = loopThread)) rfl stops
  have cleared : next loopThread owner { s with loop := some m } .clear = some { s with
      loop := some m
      loop_ := false
      threadPc := .unlocking
      fault := if s.ownerPc = .destroyed then some .deadThread else s.fault } :=
    if_pos ⟨looping, m, rfl, back, idle⟩
  obtain ⟨u, rest, ends⟩ := late_joins (s := { s with
    loop := some m
    loop_ := false
    threadPc := .unlocking
    fault := if s.ownerPc = .destroyed then some .deadThread else s.fault }) rfl at_
  refine ⟨u, (loop_lifts apart looping run now).trans ?_, ends⟩
  exact (System.Path.single (a := .clear) trivial cleared).trans rest

def Held (s : EventLoopThread Θ φ) : Prop :=
  s.ownerPc = .joining ∧ s.threadPc = .looping ∧ ∃ l ∈ s.loop, GoesOn l

theorem Held.next {a : Action Θ φ} (h : Held s) (calm : Untouched 7 s a)
    (hn : next loopThread owner s a = some u) : Held u := by
  obtain ⟨at_, looping, l, now, goes⟩ := h
  cases a with
  | loop a =>
    obtain ⟨-, hn⟩ := Option.ite_none_right_eq_some.mp hn
    obtain ⟨m, taken, rfl⟩ := Option.map_eq_some_iff.mp hn
    obtain ⟨k, also, taken⟩ := Option.bind_eq_some_iff.mp taken
    obtain rfl : l = k := Option.some.inj (now.symm.trans also)
    refine ⟨at_, looping, m, rfl, goes.next (fun t quits => ?_) taken⟩
    subst quits
    have far : 7 < s.ownerPc.rank := calm
    simp [at_, OwnerPc.rank] at far
  | clear =>
    obtain ⟨⟨-, m, also, back, -⟩, -⟩ := guard_met hn
    obtain rfl : l = m := Option.some.inj (now.symm.trans also)
    exact absurd back goes.1
  | join =>
    obtain ⟨⟨-, done⟩, -⟩ := guard_met hn
    simp [looping] at done
  | _ =>
    simp only [EventLoopThread.next] at hn
    simp [at_, looping] at hn

/-- The destructor's `join` can return exactly when the loop has not reset the `quit_` that the
destructor stored: a loop that had not reset it by then goes on for ever. -/
theorem join_returns_iff (apart : owner ≠ loopThread)
    (h : (eventLoopThread loopThread owner).Reachable (Untouched 4) s)
    (at_ : s.ownerPc = .joining) :
    (∃ u, (eventLoopThread loopThread owner).Path (Untouched 7) s u ∧ u.ownerPc = .destroyed) ↔
      ∀ l ∈ s.loop, s.threadPc = .looping → ¬GoesOn l := by
  have kept := kept (Nat.le_refl 4) h
  refine ⟨fun ⟨u, run, back⟩ l now looping goes => ?_, fun stops => ?_⟩
  · have held : Held u := run.stable (P := Held) (fun _ _ _ held calm hn => held.next calm hn)
      ⟨at_, looping, l, now, goes⟩
    exact absurd (held.1.symm.trans back) (by decide)
  · have early := kept.early
    have unstarted := kept.unstarted
    rw [at_] at early unstarted
    cases place : s.threadPc with
    | looping =>
      obtain ⟨l, now⟩ :=
        Option.isSome_iff_exists.mp (kept.built.trans (by simp [place, ThreadPc.built]))
      exact looping_joins apart place at_ now (stops l now place)
    | unlocking => exact late_joins (by rw [place]; rfl) at_
    | leaving => exact late_joins (by rw [place]; rfl) at_
    | ended => exact late_joins (by rw [place]; rfl) at_
    | unstarted => simpa using unstarted place
    | _ => simp [place, ThreadPc.early] at early

theorem join_returns_iff_unentered : ∃ s : EventLoopThread Bool ℕ,
    (eventLoopThread true false).Reachable (Untouched 4) s ∧
      (s.ownerPc, s.threadPc, s.loop.map (fun l => (l.quit_, l.loopPc))) =
        (.joining, .looping, some (true, .outside)) ∧
      ((∃ u, (eventLoopThread true false).Path (Untouched 7) s u ∧ u.ownerPc = .destroyed) ↔
        ∀ l ∈ s.loop, s.threadPc = .looping → ¬GoesOn l) := by
  have run : ((eventLoopThread true false).execute (Untouched 4)
      (construct : EventLoopThread Bool ℕ)
      [.startLoop, .construct, .callback, .publish, .test, .exit, .check, .quit,
        .quitCheck]).map
      (fun s => (s.ownerPc, s.threadPc, s.loop.map (fun l => (l.quit_, l.loopPc)))) =
      some (.joining, .looping, some (true, .outside)) := by decide +kernel
  obtain ⟨s, reached, ends⟩ := System.Reachable.of_replay rfl run
  simp only [Prod.mk.injEq] at ends
  exact ⟨s, reached, by simp [ends], join_returns_iff (by decide) reached ends.1⟩

end Join

end EventLoopThread

end TinyNetwork

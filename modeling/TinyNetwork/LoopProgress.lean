import TinyNetwork.FunctorHistory

/-! What a loop does with the work it has: the calls under way can end, a turn of the loop
thread comes back to the loop test with its batch run, and every functor that was queued can be
run with no call begun in the meantime and no timeout of `poll` used, since its wakeup is there
or on its way. -/
namespace TinyNetwork.LoopProgress
open Transition EventLoop

variable {Θ φ : Type*} [DecidableEq Θ] {loopThread : Θ} {T : Θ → Prop} {l m : EventLoop Θ φ}

def Settling (T : Θ → Prop) (_ : EventLoop Θ φ) : Action Θ φ → Prop
  | .queueInLoop _ _ => False
  | .queueCheck t => T t
  | .queueWakeup t => T t
  | .quit _ => False
  | .quitCheck t => T t
  | .quitWakeup t => T t
  | _ => True

def Working (T : Θ → Prop) (l : EventLoop Θ φ) (a : Action Θ φ) : Prop :=
  Settling T l a ∧ a ≠ .poll false

def Calling (T : Θ → Prop) (_ : EventLoop Θ φ) : Action Θ φ → Prop
  | .queueCheck t => T t
  | .queueWakeup t => T t
  | .quitCheck t => T t
  | .quitWakeup t => T t
  | _ => False

omit [DecidableEq Θ] in
theorem Calling.working {a : Action Θ φ} (h : Calling T l a) : Working T l a := by
  cases a with
  | queueCheck t => exact ⟨h, nofun⟩
  | queueWakeup t => exact ⟨h, nofun⟩
  | quitCheck t => exact ⟨h, nofun⟩
  | quitWakeup t => exact ⟨h, nofun⟩
  | _ => exact h.elim

def Everyone (_ : Θ) : Prop := True

structure Steady (l m : EventLoop Θ φ) : Prop where
  loopPc : m.loopPc = l.loopPc
  quit : m.quit_ = l.quit_
  functors : m.functors = l.functors
  queue : m.pendingFunctors_ = l.pendingFunctors_
  active : m.wakeupActive = l.wakeupActive
  counter : 0 < l.wakeupFd_ → 0 < m.wakeupFd_
  idle : ∀ t, l.pc t = .idle → m.pc t = .idle

omit [DecidableEq Θ] in
theorem Steady.refl (l : EventLoop Θ φ) : Steady l l :=
  ⟨rfl, rfl, rfl, rfl, rfl, id, fun _ => id⟩

omit [DecidableEq Θ] in
theorem Steady.trans {k : EventLoop Θ φ} (h : Steady l m) (g : Steady m k) : Steady l k where
  loopPc := g.loopPc.trans h.loopPc
  quit := g.quit.trans h.quit
  functors := g.functors.trans h.functors
  queue := g.queue.trans h.queue
  active := g.active.trans h.active
  counter := g.counter ∘ h.counter
  idle t := g.idle t ∘ h.idle t

theorem steady_goto {t : Θ} {p : CallPc} (busy : l.pc t ≠ .idle) : Steady l (l.goto t p) :=
  ⟨rfl, rfl, rfl, rfl, rfl, id, fun _ => FunctorHistory.goto_idle busy⟩

theorem steady_wakeup {t : Θ} {p : CallPc} (busy : l.pc t ≠ .idle) :
    Steady l (l.goto t p).wakeup :=
  ⟨rfl, rfl, rfl, rfl, rfl, fun _ => wakeup_pos _, fun _ => FunctorHistory.goto_idle busy⟩

theorem queueWakeup_ends {t : Θ} (own : T t) (waking : l.pc t = .waking) :
    ∃ m, (eventLoop loopThread).Path (Calling T) l m ∧ Steady l m ∧ m.pc t = .idle ∧
      0 < m.wakeupFd_ :=
  ⟨(l.goto t .idle).wakeup, .single (a := .queueWakeup t) own (if_pos waking),
    steady_wakeup (by simp [waking]), goto_self l t .idle, wakeup_pos _⟩

theorem queueCheck_ends {t : Θ} (own : T t) (inserted : l.pc t = .inserted) :
    ∃ m, (eventLoop loopThread).Path (Calling T) l m ∧ Steady l m ∧ m.pc t = .idle ∧
      (t ≠ loopThread → 0 < m.wakeupFd_) := by
  have busy : l.pc t ≠ .idle := by simp [inserted]
  have checked : EventLoop.next loopThread l (.queueCheck t) =
      some (l.goto t (if t ≠ loopThread ∨ l.callingPendingFunctors_ = true then .waking
        else .idle)) := if_pos inserted
  by_cases wakes : t ≠ loopThread ∨ l.callingPendingFunctors_ = true
  · rw [if_pos wakes] at checked
    obtain ⟨m, run, steady, idle, counter⟩ :=
      queueWakeup_ends own (goto_self l t .waking)
    exact ⟨m, (System.Path.single (a := .queueCheck t) own checked).trans run,
      (steady_goto busy).trans steady, idle, fun _ => counter⟩
  · rw [if_neg wakes] at checked
    exact ⟨_, System.Path.single (a := .queueCheck t) own checked, steady_goto busy,
      goto_self l t .idle, fun other => absurd (.inl other) wakes⟩

theorem quitWakeup_ends {t : Θ} (own : T t) (waking : l.pc t = .quitWaking) :
    ∃ m, (eventLoop loopThread).Path (Calling T) l m ∧ Steady l m ∧ m.pc t = .idle := by
  have busy : l.pc t ≠ .idle := by simp [waking]
  have steady := steady_wakeup (p := .idle) busy
  exact ⟨_, .single (a := .quitWakeup t) own (if_pos waking),
    ⟨steady.1, steady.2, steady.3, steady.4, steady.5, steady.6, steady.7⟩, goto_self l t .idle⟩

theorem quitCheck_ends {t : Θ} (own : T t) (stored : l.pc t = .quitStored) :
    ∃ m, (eventLoop loopThread).Path (Calling T) l m ∧ Steady l m ∧ m.pc t = .idle := by
  have busy : l.pc t ≠ .idle := by simp [stored]
  by_cases home : t = loopThread
  · obtain ⟨m, run, steady, idle⟩ :=
      quitWakeup_ends own (goto_self l t .quitWaking)
    have checked : EventLoop.next loopThread l (.quitCheck t) = some (l.goto t .quitWaking) :=
      (if_pos stored).trans (congrArg some (if_pos home))
    exact ⟨m, (System.Path.single (a := .quitCheck t) own checked).trans run,
      (steady_goto busy).trans steady, idle⟩
  · have checked : EventLoop.next loopThread l (.quitCheck t) =
        some { l.goto t .idle with quitReturned := true } :=
      (if_pos stored).trans (congrArg some (if_neg home))
    exact ⟨_, .single (a := .quitCheck t) own checked,
      ⟨rfl, rfl, rfl, rfl, rfl, id, fun _ => FunctorHistory.goto_idle busy⟩, goto_self l t .idle⟩

theorem calling_ends (loopThread : Θ) (l : EventLoop Θ φ) {t : Θ} (own : T t) :
    ∃ m, (eventLoop loopThread).Path (Calling T) l m ∧ Steady l m ∧ m.pc t = .idle ∧
      (isQueueing (l.pc t) = true → t ≠ loopThread → 0 < m.wakeupFd_) := by
  cases at_ : l.pc t with
  | idle => exact ⟨l, .refl l, .refl l, at_, fun queueing => by cases queueing⟩
  | inserted =>
    obtain ⟨m, run, steady, idle, counter⟩ := queueCheck_ends own at_
    exact ⟨m, run, steady, idle, fun _ => counter⟩
  | waking =>
    obtain ⟨m, run, steady, idle, counter⟩ := queueWakeup_ends own at_
    exact ⟨m, run, steady, idle, fun _ _ => counter⟩
  | quitStored =>
    obtain ⟨m, run, steady, idle⟩ := quitCheck_ends own at_
    exact ⟨m, run, steady, idle, fun queueing => by cases queueing⟩
  | quitWaking =>
    obtain ⟨m, run, steady, idle⟩ := quitWakeup_ends own at_
    exact ⟨m, run, steady, idle, fun queueing => by cases queueing⟩

theorem call_ends (loopThread : Θ) (l : EventLoop Θ φ) {t : Θ} (own : T t) :
    ∃ m, (eventLoop loopThread).Path (Working T) l m ∧ Steady l m ∧ m.pc t = .idle ∧
      (isQueueing (l.pc t) = true → t ≠ loopThread → 0 < m.wakeupFd_) := by
  obtain ⟨m, run, ends⟩ := calling_ends loopThread l own
  exact ⟨m, run.mono fun _ _ calls => calls.working, ends⟩

section Turns

theorem batch_ends (idle : l.pc loopThread = .idle) (running : l.loopPc = .running) :
    (eventLoop loopThread).Path (Working T) l
      { l with functors := [], callingPendingFunctors_ := false, loopPc := .test } := by
  induction batch : l.functors generalizing l with
  | nil =>
    have ended : EventLoop.next loopThread l .endPending = some
        { l with callingPendingFunctors_ := false, loopPc := .test } :=
      if_pos ⟨⟨running, idle⟩, batch⟩
    rw [← batch]
    exact .single (a := .endPending) ⟨trivial, nofun⟩ ended
  | cons f rest ih =>
    have called : EventLoop.next loopThread l .runFunctor = some { l with functors := rest } :=
      (if_pos ⟨⟨running, idle⟩, by simp [batch]⟩).trans (by simp [batch])
    exact (System.Path.single (a := .runFunctor) ⟨trivial, nofun⟩ called).trans
      (ih (l := { l with functors := rest }) idle running rfl)

theorem swap_ends (idle : l.pc loopThread = .idle) (swapping : l.loopPc = .swapping) :
    (eventLoop loopThread).Path (Working T) l
      { l with
        functors := [], pendingFunctors_ := [], callingPendingFunctors_ := false
        loopPc := .test } :=
  (System.Path.single (a := .swap) ⟨trivial, nofun⟩ (if_pos ⟨swapping, idle⟩)).trans
    (batch_ends (l := { l with
      functors := l.pendingFunctors_, pendingFunctors_ := [], loopPc := .running }) idle rfl)

theorem handling_ends (idle : l.pc loopThread = .idle) (handling : l.loopPc = .handling) :
    ∃ m, (eventLoop loopThread).Path (Working T) l m ∧ m.loopPc = .test ∧ m.quit_ = l.quit_ ∧
      m.pc = l.pc ∧ m.functors = [] ∧ m.pendingFunctors_ = [] := by
  have calls : ∀ k : EventLoop Θ φ, k.pc = l.pc → k.loopPc = .handling → k.wakeupActive = false →
      k.quit_ = l.quit_ → ∃ m, (eventLoop loopThread).Path (Working T) k m ∧ m.loopPc = .test ∧
        m.quit_ = l.quit_ ∧ m.pc = l.pc ∧ m.functors = [] ∧ m.pendingFunctors_ = [] := by
    intro k same place quiet quit
    have still : k.pc loopThread = .idle := (congrFun same loopThread).trans idle
    have called : EventLoop.next loopThread k .callPending = some
        { k with callingPendingFunctors_ := true, loopPc := .swapping } :=
      if_pos ⟨⟨place, still⟩, quiet⟩
    exact ⟨_, (System.Path.single (a := .callPending) ⟨trivial, nofun⟩ called).trans
      (swap_ends (l := { k with callingPendingFunctors_ := true, loopPc := .swapping })
        still rfl), rfl, quit, same, rfl, rfl⟩
  cases active : l.wakeupActive with
  | false => exact calls l rfl handling active rfl
  | true =>
    have read : EventLoop.next loopThread l .handleRead = some
        { l with wakeupFd_ := 0, wakeupActive := false } := if_pos ⟨⟨handling, idle⟩, active⟩
    obtain ⟨m, run, rest⟩ := calls { l with wakeupFd_ := 0, wakeupActive := false } rfl handling
      rfl rfl
    exact ⟨m, (System.Path.single (a := .handleRead) ⟨trivial, nofun⟩ read).trans run, rest⟩

theorem entry_ends (idle : l.pc loopThread = .idle)
    (entry : l.loopPc = .outside ∨ l.loopPc = .entered) :
    ∃ m, (eventLoop loopThread).Path (Working T) l m ∧ m.loopPc = .test ∧ m.quit_ = false ∧
      m.pc = l.pc ∧ m.functors = l.functors ∧ m.pendingFunctors_ = l.pendingFunctors_ := by
  have reset : ∀ k : EventLoop Θ φ, k.pc loopThread = .idle → k.loopPc = .entered →
      (eventLoop loopThread).Path (Working T) k { k with quit_ := false, loopPc := .test } :=
    fun k still place => .single (a := .reset) ⟨trivial, nofun⟩ (if_pos ⟨place, still⟩)
  rcases entry with outside | entered
  · have enter : EventLoop.next loopThread l .enter = some
        { l with looping_ := true, loopPc := .entered } := if_pos ⟨outside, idle⟩
    exact ⟨_, (System.Path.single (a := .enter) ⟨trivial, nofun⟩ enter).trans
      (reset { l with looping_ := true, loopPc := .entered } idle rfl), rfl, rfl, rfl, rfl, rfl⟩
  · exact ⟨_, reset l idle entered, rfl, rfl, rfl, rfl, rfl⟩

/-- The loop will take up what is queued: it goes on, or is still to reset `quit_`. -/
def GoesOn (l : EventLoop Θ φ) : Prop :=
  l.loopPc ≠ .returned ∧ (l.quit_ = false ∨ l.loopPc = .outside ∨ l.loopPc = .entered)

def Left (loopThread : Θ) (l : EventLoop Θ φ) : Prop :=
  l.loopPc = .returned ∧ l.pc loopThread = .idle

theorem test_leaves (idle : l.pc loopThread = .idle) (test : l.loopPc = .test)
    (quit : l.quit_ = true) :
    ∃ m, (eventLoop loopThread).Path (Settling T) l m ∧ Left loopThread m :=
  ⟨_, .single (a := .test) trivial (if_pos ⟨test, idle⟩), by simp [Left, quit, idle]⟩

theorem quit_leaves (own : T loopThread) (stops : ¬GoesOn l) :
    ∃ m, (eventLoop loopThread).Path (Settling T) l m ∧ Left loopThread m := by
  have settling : ∀ {l m : EventLoop Θ φ}, (eventLoop loopThread).Path (Working T) l m →
      (eventLoop loopThread).Path (Settling T) l m := fun run => run.mono fun _ _ work => work.1
  obtain ⟨k, run, steady, idle, -⟩ := call_ends loopThread l own
  have stored : k.loopPc ≠ .returned → k.quit_ = true := fun inside => by
    rw [GoesOn, ← steady.loopPc, ← steady.quit] at stops
    simpa using fun stays => stops ⟨inside, .inl stays⟩
  suffices ends : ∃ m, (eventLoop loopThread).Path (Settling T) k m ∧ Left loopThread m by
    obtain ⟨m, rest, left⟩ := ends
    exact ⟨m, (settling run).trans rest, left⟩
  have turns : ∀ j : EventLoop Θ φ, j.pc loopThread = .idle → j.loopPc = .handling →
      j.quit_ = true → ∃ m, (eventLoop loopThread).Path (Settling T) j m ∧ Left loopThread m := by
    intro j still place set
    obtain ⟨i, turn, test, same, calls, -, -⟩ := handling_ends still place
    obtain ⟨m, rest, left⟩ :=
      test_leaves ((congrFun calls loopThread).trans still) test (same.trans set)
    exact ⟨m, (settling turn).trans rest, left⟩
  cases place : k.loopPc with
  | outside =>
    exact absurd ⟨by simp [← steady.loopPc, place], by simp [← steady.loopPc, place]⟩ stops
  | entered =>
    exact absurd ⟨by simp [← steady.loopPc, place], by simp [← steady.loopPc, place]⟩ stops
  | test => exact test_leaves idle place (stored (by simp [place]))
  | polling =>
    have polled : EventLoop.next loopThread k (.poll false) = some
        { k with wakeupActive := false, loopPc := .handling } := if_pos ⟨⟨place, idle⟩, by simp⟩
    obtain ⟨m, rest, left⟩ :=
      turns { k with wakeupActive := false, loopPc := .handling } idle rfl
        (stored (by simp [place]))
    exact ⟨m, (System.Path.single (a := .poll false) trivial polled).trans rest, left⟩
  | handling => exact turns k idle place (stored (by simp [place]))
  | swapping =>
    obtain ⟨m, rest, left⟩ := test_leaves (l := { k with
      functors := [], pendingFunctors_ := [], callingPendingFunctors_ := false
      loopPc := .test }) idle rfl (stored (by simp [place]))
    exact ⟨m, (settling (swap_ends idle place)).trans rest, left⟩
  | running =>
    obtain ⟨m, rest, left⟩ := test_leaves (l := { k with
      functors := [], callingPendingFunctors_ := false, loopPc := .test }) idle rfl
        (stored (by simp [place]))
    exact ⟨m, (settling (batch_ends idle place)).trans rest, left⟩
  | returned => exact ⟨k, .refl k, place, idle⟩

end Turns

section Functors

def Drained (l : EventLoop Θ φ) : Prop := l.functors = [] ∧ l.pendingFunctors_ = []

def Works (s : FunctorHistory Θ φ) : Action Θ φ → Prop := Working Everyone s.loop

theorem history_lifts {ok : EventLoop Θ φ → Action Θ φ → Prop} {s : FunctorHistory Θ φ}
    (run : (eventLoop loopThread).Path ok s.loop m) :
    ∃ u, (FunctorHistory.functorHistory loopThread).Path (fun s a => ok s.loop a) s u ∧
      u.loop = m := by
  generalize start : s.loop = l at run
  induction run with
  | refl => exact ⟨s, .refl s, start⟩
  | @tail k m _ taken ih =>
    obtain ⟨a, ha, hn⟩ := taken
    obtain ⟨u, path, rfl⟩ := ih
    have recorded : FunctorHistory.next loopThread u a = some (u.observe m a) :=
      (congrArg (Option.map _) hn).trans rfl
    refine ⟨u.observe m a, path.tail ha recorded, ?_⟩
    cases a <;> rfl

theorem batch_running (h : (eventLoop loopThread).Reachable Any l) (away : l.loopPc ≠ .running) :
    l.functors = [] := by
  obtain ⟨l₀, rfl, run⟩ := h
  obtain ⟨u, path, rfl⟩ := history_lifts (s := FunctorHistory.construct) run
  have reached : (FunctorHistory.functorHistory loopThread).Reachable Any u :=
    ⟨_, rfl, path.mono fun _ _ _ => trivial⟩
  exact (FunctorHistory.reachable_ordered reached).batch away

theorem reachable_woken (h : (eventLoop loopThread).Reachable Any l) : Woken loopThread l :=
  h.invariant (P := Woken loopThread) (fun _ hi => hi ▸ construct_woken)
    fun _ _ _ hs _ hn => next_woken hs hn

theorem worked (h : (eventLoop loopThread).Reachable Any l)
    (run : (eventLoop loopThread).Path (Working Everyone) l m) :
    (eventLoop loopThread).Reachable Any m :=
  h.path (run.mono fun _ _ _ => trivial)

/-- A loop in `poll` with functors queued is woken up by the eventfd. -/
theorem polling_ends (h : (eventLoop loopThread).Reachable Any l) (idle : l.pc loopThread = .idle)
    (polling : l.loopPc = .polling) :
    ∃ m, (eventLoop loopThread).Path (Working Everyone) l m ∧ Drained m := by
  by_cases empty : l.pendingFunctors_ = []
  · exact ⟨l, .refl l, batch_running h (by simp [polling]), empty⟩
  · have signalled : Signalled l :=
      (reachable_woken h).signalled (by simp [Swaps, polling]) empty
    have readable : ∃ k, (eventLoop loopThread).Path (Working Everyone) l k ∧ Steady l k ∧
        0 < k.wakeupFd_ := by
      rcases signalled with counter | ⟨t, queueing⟩
      · exact ⟨l, .refl l, .refl l, counter⟩
      · have other : t ≠ loopThread := by
          rintro rfl
          rw [idle] at queueing
          cases queueing
        obtain ⟨k, run, steady, -, counter⟩ :=
          call_ends (T := Everyone) (t := t) loopThread l trivial
        exact ⟨k, run, steady, counter queueing other⟩
    obtain ⟨k, run, steady, counter⟩ := readable
    have still := steady.idle loopThread idle
    have polled : EventLoop.next loopThread k (.poll true) = some
        { k with wakeupActive := true, loopPc := .handling } :=
      if_pos ⟨⟨steady.loopPc.trans polling, still⟩, fun _ => counter⟩
    obtain ⟨m, turn, -, -, -, batch, queue⟩ :=
      handling_ends (l := { k with wakeupActive := true, loopPc := .handling }) still rfl
    have works : Working Everyone k (.poll true) := ⟨trivial, by simp⟩
    exact ⟨m, (run.tail works polled).trans turn, batch, queue⟩

theorem test_ends (h : (eventLoop loopThread).Reachable Any l) (idle : l.pc loopThread = .idle)
    (test : l.loopPc = .test) (stays : l.quit_ = false) :
    ∃ m, (eventLoop loopThread).Path (Working Everyone) l m ∧ Drained m := by
  have tested : EventLoop.next loopThread l .test = some { l with loopPc := .polling } :=
    (if_pos ⟨test, idle⟩).trans (by simp [stays])
  have run : (eventLoop loopThread).Path (Working Everyone) l { l with loopPc := .polling } :=
    .single (a := .test) ⟨trivial, nofun⟩ tested
  obtain ⟨m, rest, ends⟩ := polling_ends (worked h run) idle rfl
  exact ⟨m, run.trans rest, ends⟩

/-- The queue is worked off from wherever the loop is. -/
theorem queue_drains (h : (eventLoop loopThread).Reachable Any l) (goes : GoesOn l) :
    ∃ m, (eventLoop loopThread).Path (Working Everyone) l m ∧ Drained m := by
  obtain ⟨k, run, steady, idle, -⟩ :=
    call_ends (T := Everyone) (t := loopThread) loopThread l trivial
  have reached := worked h run
  obtain ⟨inside, stays⟩ := goes
  rw [← steady.loopPc] at inside
  rw [← steady.loopPc, ← steady.quit] at stays
  suffices ends : ∃ m, (eventLoop loopThread).Path (Working Everyone) k m ∧ Drained m by
    obtain ⟨m, rest, ends⟩ := ends
    exact ⟨m, run.trans rest, ends⟩
  have entry : k.loopPc = .outside ∨ k.loopPc = .entered →
      ∃ m, (eventLoop loopThread).Path (Working Everyone) k m ∧ Drained m := fun outside => by
    obtain ⟨j, enters, place, reset, calls, -, -⟩ := entry_ends idle outside
    obtain ⟨m, rest, ends⟩ := test_ends (worked reached enters)
      ((congrFun calls loopThread).trans idle) place reset
    exact ⟨m, enters.trans rest, ends⟩
  cases place : k.loopPc with
  | outside => exact entry (.inl place)
  | entered => exact entry (.inr place)
  | test => exact test_ends reached idle place (stays.resolve_right (by simp [place]))
  | polling => exact polling_ends reached idle place
  | handling =>
    obtain ⟨m, turn, -, -, -, ends⟩ := handling_ends idle place
    exact ⟨m, turn, ends⟩
  | swapping => exact ⟨_, swap_ends idle place, rfl, rfl⟩
  | running =>
    have turn := batch_ends (T := Everyone) idle place
    obtain ⟨m, rest, ends⟩ := test_ends (worked reached turn) idle rfl
      (stays.resolve_right (by simp [place]))
    exact ⟨m, turn.trans rest, ends⟩
  | returned => exact absurd place inside

theorem GoesOn.next {a : Action Θ φ} (h : GoesOn l) (calm : ∀ t, a ≠ .quit t)
    (hn : EventLoop.next loopThread l a = some m) : GoesOn m := by
  obtain ⟨inside, stays⟩ := h
  cases a with
  | test =>
    obtain ⟨at_, rfl⟩ := guard_met hn
    have unset : l.quit_ = false := stays.resolve_right (by simp [at_.1])
    exact ⟨by simp [unset], .inl (by simp [unset])⟩
  | enter =>
    obtain ⟨-, rfl⟩ := guard_met hn
    exact ⟨by simp, .inr (.inr rfl)⟩
  | reset =>
    obtain ⟨-, rfl⟩ := guard_met hn
    exact ⟨by simp, .inl rfl⟩
  | quit t => exact absurd rfl (calm t)
  | poll wakeup =>
    obtain ⟨at_, rfl⟩ := guard_met hn
    exact ⟨by simp, .inl (stays.resolve_right (by simp [at_.1.1]))⟩
  | callPending =>
    obtain ⟨at_, rfl⟩ := guard_met hn
    exact ⟨by simp, .inl (stays.resolve_right (by simp [at_.1.1]))⟩
  | swap =>
    obtain ⟨at_, rfl⟩ := guard_met hn
    exact ⟨by simp, .inl (stays.resolve_right (by simp [at_.1]))⟩
  | endPending =>
    obtain ⟨at_, rfl⟩ := guard_met hn
    exact ⟨by simp, .inl (stays.resolve_right (by simp [at_.1.1]))⟩
  | quitCheck t =>
    obtain ⟨-, rfl⟩ := guard_met hn
    split_ifs <;> exact ⟨inside, stays⟩
  | _ =>
    obtain ⟨-, rfl⟩ := guard_met hn
    exact ⟨inside, stays⟩

theorem inserted_same {s u : FunctorHistory Θ φ}
    (run : (FunctorHistory.functorHistory loopThread).Path Works s u) :
    u.inserted = s.inserted := by
  refine run.stable (P := fun u => u.inserted = s.inserted) (fun v a w same work hn => ?_) rfl
  obtain ⟨l, -, rfl⟩ := FunctorHistory.next_loop hn
  cases a with
  | queueInLoop t f => exact work.1.elim
  | _ => exact same

instance (l : EventLoop Θ φ) : Decidable (GoesOn l) := by
  unfold GoesOn
  infer_instance

end Functors

end TinyNetwork.LoopProgress

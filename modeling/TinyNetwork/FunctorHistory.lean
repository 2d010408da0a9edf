import TinyNetwork.EventLoop

/-! The history of a loop's functor queue: which functors were inserted, in the order in
which their insertions took `mutex_`, which have been started, which calls of
`queueInLoop` have returned, and which of these had returned when some `quit()` was
called. Functors are told apart by their position among the insertions. The queue is a
FIFO over every run; a functor still queued when `quit_` is stored behind the swap of
its turn is dropped. -/
namespace TinyNetwork
open Transition

/-- `position` is the place of a thread's last insertion; `returned` and `due` list the
places of the calls that have returned, now and before a call of `quit`. -/
structure FunctorHistory (Θ φ : Type*) where
  loop : EventLoop Θ φ
  started : List φ
  inserted : List φ
  position : Θ → ℕ
  returned : List ℕ
  due : List ℕ

namespace FunctorHistory
open EventLoop

variable {Θ φ : Type*} [DecidableEq Θ]

def construct : FunctorHistory Θ φ where
  loop := EventLoop.construct
  started := []
  inserted := []
  position := fun _ => 0
  returned := []
  due := []

def observe (s : FunctorHistory Θ φ) (l : EventLoop Θ φ) : Action Θ φ → FunctorHistory Θ φ
  | .runFunctor => { s with loop := l, started := s.started ++ s.loop.functors.take 1 }
  | .queueInLoop t f => { s with
      loop := l
      inserted := s.inserted ++ [f]
      position := Function.update s.position t s.inserted.length }
  | .queueCheck t => { s with
      loop := l
      returned := if l.pc t = .idle then s.position t :: s.returned else s.returned }
  | .queueWakeup t => { s with loop := l, returned := s.position t :: s.returned }
  | .quit _ => { s with loop := l, due := s.returned ++ s.due }
  | _ => { s with loop := l }

variable (loopThread : Θ)

def next (s : FunctorHistory Θ φ) (a : Action Θ φ) : Option (FunctorHistory Θ φ) :=
  (EventLoop.next loopThread s.loop a).map fun l => s.observe l a

def functorHistory : System (FunctorHistory Θ φ) (Action Θ φ) where
  init s := s = construct
  next := next loopThread

variable {loopThread} {s s' u : FunctorHistory Θ φ}

theorem next_loop {a : Action Θ φ} (hn : next loopThread s a = some s') :
    ∃ l, EventLoop.next loopThread s.loop a = some l ∧ s' = s.observe l a := by
  obtain ⟨l, taken, same⟩ := Option.map_eq_some_iff.mp hn
  exact ⟨l, taken, same.symm⟩

section Order

/-- Every insertion is started, in the running batch or queued, in the order of the
insertions; a batch is there only while it runs. -/
structure Ordered (s : FunctorHistory Θ φ) : Prop where
  sequence : s.started ++ s.loop.functors ++ s.loop.pendingFunctors_ = s.inserted
  batch : s.loop.loopPc ≠ .running → s.loop.functors = []

theorem next_ordered {a : Action Θ φ} (h : Ordered s) (hn : next loopThread s a = some s') :
    Ordered s' := by
  obtain ⟨l, taken, rfl⟩ := next_loop hn
  have sequence := h.sequence
  cases a with
  | enter =>
    obtain ⟨ready, rfl⟩ := guard_met taken
    exact ⟨sequence, fun _ => h.batch (by simp [ready.1])⟩
  | reset =>
    obtain ⟨ready, rfl⟩ := guard_met taken
    exact ⟨sequence, fun _ => h.batch (by simp [ready.1])⟩
  | test =>
    obtain ⟨ready, rfl⟩ := guard_met taken
    have idle := h.batch (by simp [ready.1])
    split_ifs <;> exact ⟨sequence, fun _ => idle⟩
  | poll wakeup =>
    obtain ⟨ready, rfl⟩ := guard_met taken
    exact ⟨sequence, fun _ => h.batch (by simp [ready.1.1])⟩
  | callPending =>
    obtain ⟨ready, rfl⟩ := guard_met taken
    exact ⟨sequence, fun _ => h.batch (by simp [ready.1.1])⟩
  | swap =>
    obtain ⟨ready, rfl⟩ := guard_met taken
    have idle := h.batch (by simp [ready.1])
    refine ⟨?_, fun away => absurd rfl away⟩
    simpa [observe, idle] using sequence
  | runFunctor =>
    obtain ⟨ready, rfl⟩ := guard_met taken
    refine ⟨?_, fun away => absurd ready.1.1 away⟩
    have split : s.loop.functors.take 1 ++ s.loop.functors.tail = s.loop.functors := by
      rw [← List.drop_one, List.take_append_drop]
    calc s.started ++ s.loop.functors.take 1 ++ s.loop.functors.tail ++ s.loop.pendingFunctors_
        = s.started ++ (s.loop.functors.take 1 ++ s.loop.functors.tail) ++
            s.loop.pendingFunctors_ := by simp only [List.append_assoc]
      _ = s.inserted := by rw [split, sequence]
  | endPending =>
    obtain ⟨ready, rfl⟩ := guard_met taken
    exact ⟨sequence, fun _ => ready.2⟩
  | queueInLoop t f =>
    obtain ⟨-, rfl⟩ := guard_met taken
    refine ⟨?_, h.batch⟩
    simp only [observe, ← sequence, List.append_assoc, goto]
  | quitCheck t =>
    obtain ⟨-, rfl⟩ := guard_met taken
    split_ifs <;> exact ⟨sequence, h.batch⟩
  | _ =>
    obtain ⟨-, rfl⟩ := guard_met taken
    exact ⟨sequence, h.batch⟩

theorem reachable_ordered {ok : FunctorHistory Θ φ → Action Θ φ → Prop}
    (h : (functorHistory loopThread).Reachable ok s) : Ordered s := by
  refine h.invariant (P := Ordered) (fun s₀ hi => ?_) fun _ _ _ hs _ hn => next_ordered hs hn
  subst hi
  exact ⟨rfl, fun _ => rfl⟩

def WithinBatch (_ : FunctorHistory Θ φ) : Action Θ φ → Prop
  | .swap => False
  | _ => True

theorem next_within {a : Action Θ φ} (ha : WithinBatch s a)
    (hn : next loopThread s a = some s') :
    s'.started ++ s'.loop.functors = s.started ++ s.loop.functors := by
  obtain ⟨l, taken, rfl⟩ := next_loop hn
  cases a with
  | swap => exact absurd ha id
  | runFunctor =>
    obtain ⟨-, rfl⟩ := guard_met taken
    simp only [observe, List.append_assoc]
    rw [← List.drop_one, List.take_append_drop]
  | test =>
    obtain ⟨-, rfl⟩ := guard_met taken
    split_ifs <;> rfl
  | quitCheck t =>
    obtain ⟨-, rfl⟩ := guard_met taken
    split_ifs <;> rfl
  | _ =>
    obtain ⟨-, rfl⟩ := guard_met taken
    rfl

theorem path_within (h : (functorHistory loopThread).Path WithinBatch s u) :
    u.started ++ u.loop.functors = s.started ++ s.loop.functors := by
  refine h.stable (P := fun u => u.started ++ u.loop.functors = s.started ++ s.loop.functors)
    (fun _ _ _ hs ha hn => ?_) rfl
  exact (next_within ha hn).trans hs

/-- The functors started, the rest of the batch and the queue are the insertions in their
order, and until the next swap only functors of the batch are started: none that is
inserted from now on. -/
theorem functors_in_order (h : (functorHistory loopThread).Reachable Any s) :
    s.started ++ s.loop.functors ++ s.loop.pendingFunctors_ = s.inserted ∧
      ∀ u, (functorHistory loopThread).Path WithinBatch s u →
        u.started <+: s.started ++ s.loop.functors ∧ u.started.length ≤ s.inserted.length := by
  have sequence := (reachable_ordered h).sequence
  refine ⟨sequence, fun u run => ?_⟩
  have within : u.started <+: s.started ++ s.loop.functors :=
    path_within run ▸ List.prefix_append _ _
  have before : s.started ++ s.loop.functors <+: s.inserted :=
    sequence ▸ List.prefix_append _ _
  exact ⟨within, (within.trans before).length_le⟩

theorem functors_in_order_running :
    ∃ s : FunctorHistory Bool ℕ, (functorHistory true).Reachable Any s ∧
      s.loop.loopPc = .running ∧ s.started = [5] ∧ s.loop.functors = [] ∧
      s.loop.pendingFunctors_ = [6] ∧
      s.started ++ s.loop.functors ++ s.loop.pendingFunctors_ = s.inserted := by
  have run : ((functorHistory true).execute Any (construct : FunctorHistory Bool ℕ)
      [.enter, .reset, .test, .queueInLoop false 5, .poll false, .callPending, .swap,
        .runFunctor, .queueInLoop true 6]).map
      (fun s => (s.loop.loopPc, s.started, s.loop.functors, s.loop.pendingFunctors_)) =
      some (.running, [5], [], [6]) := by decide +kernel
  obtain ⟨s, reached, ends⟩ := System.Reachable.of_replay rfl run
  simp only [Prod.mk.injEq] at ends
  exact ⟨s, reached, ends.1, ends.2.1, ends.2.2.1, ends.2.2.2, (functors_in_order reached).1⟩

end Order

section Exit

def Draining (s : FunctorHistory Θ φ) : Prop :=
  s.loop.loopPc = .polling ∨ s.loop.loopPc = .handling ∨ s.loop.loopPc = .swapping

instance (s : FunctorHistory Θ φ) : Decidable (Draining s) := by
  unfold Draining
  infer_instance

/-- The functor at place `i` has been taken out of the queue, or will be at the swap of
this turn. -/
def Covered (s : FunctorHistory Θ φ) (i : ℕ) : Prop :=
  i < s.started.length + s.loop.functors.length ∨ Draining s ∧ i < s.inserted.length

instance (s : FunctorHistory Θ φ) (i : ℕ) : Decidable (Covered s i) := by
  unfold Covered
  infer_instance

/-- `quit` is called on the way to the swap, or when no functor whose `queueInLoop` has
returned is still queued. -/
def Prompt (s : FunctorHistory Θ φ) : Action Θ φ → Prop
  | .quit _ => Draining s ∨ ∀ i ∈ s.returned, i < s.started.length + s.loop.functors.length
  | _ => True

instance (s : FunctorHistory Θ φ) : (a : Action Θ φ) → Decidable (Prompt s a)
  | .quit _ => inferInstanceAs (Decidable (_ ∨ _))
  | .enter | .reset | .test | .poll _ | .handleRead | .callPending | .swap | .runFunctor
  | .endPending | .queueInLoop .. | .queueCheck _ | .queueWakeup _ | .quitCheck _
  | .quitWakeup _ => isTrue trivial

omit [DecidableEq Θ] in
theorem Covered.keep {i : ℕ} (h : Covered s i)
    (out : s'.started.length + s'.loop.functors.length =
      s.started.length + s.loop.functors.length)
    (inserted : s.inserted.length ≤ s'.inserted.length) (draining : Draining s → Draining s') :
    Covered s' i := by
  refine h.imp (fun past => ?_) fun coming => ⟨draining coming.1, ?_⟩
  · omega
  · exact Nat.lt_of_lt_of_le coming.2 inserted

theorem next_covered {a : Action Θ φ} {i : ℕ} (ordered : Ordered s) (h : Covered s i)
    (hn : next loopThread s a = some s') : Covered s' i := by
  obtain ⟨l, taken, rfl⟩ := next_loop hn
  cases a with
  | enter =>
    obtain ⟨ready, rfl⟩ := guard_met taken
    exact h.keep rfl (Nat.le_refl _) (by simp [Draining, ready.1])
  | reset =>
    obtain ⟨ready, rfl⟩ := guard_met taken
    exact h.keep rfl (Nat.le_refl _) (by simp [Draining, ready.1])
  | test =>
    obtain ⟨ready, rfl⟩ := guard_met taken
    split_ifs <;> exact h.keep rfl (Nat.le_refl _) (by simp [Draining, ready.1])
  | poll wakeup =>
    obtain ⟨ready, rfl⟩ := guard_met taken
    exact h.keep rfl (Nat.le_refl _) fun _ => .inr (.inl rfl)
  | handleRead =>
    obtain ⟨ready, rfl⟩ := guard_met taken
    exact h.keep rfl (Nat.le_refl _) id
  | callPending =>
    obtain ⟨ready, rfl⟩ := guard_met taken
    exact h.keep rfl (Nat.le_refl _) fun _ => .inr (.inr rfl)
  | swap =>
    obtain ⟨ready, rfl⟩ := guard_met taken
    -- everything inserted so far is now in the batch
    have idle := ordered.batch (by simp [ready.1])
    have total := congrArg List.length ordered.sequence
    simp only [idle, List.append_nil, List.length_append] at total
    refine .inl ?_
    have inserted : i < s.inserted.length := by
      refine h.elim (fun past => ?_) And.right
      rw [idle, List.length_nil] at past
      omega
    simp only [observe]
    omega
  | runFunctor =>
    obtain ⟨ready, rfl⟩ := guard_met taken
    refine h.keep ?_ (Nat.le_refl _) id
    have some : 0 < s.loop.functors.length := List.length_pos_iff.mpr ready.2
    simp only [observe, List.length_append, List.length_take, List.length_tail]
    omega
  | endPending =>
    obtain ⟨ready, rfl⟩ := guard_met taken
    exact h.keep rfl (Nat.le_refl _) (by simp [Draining, ready.1.1])
  | queueInLoop t f =>
    obtain ⟨-, rfl⟩ := guard_met taken
    exact h.keep rfl (by simp [observe]) id
  | quitCheck t =>
    obtain ⟨-, rfl⟩ := guard_met taken
    split_ifs <;> exact h.keep rfl (Nat.le_refl _) id
  | _ =>
    obtain ⟨-, rfl⟩ := guard_met taken
    exact h.keep rfl (Nat.le_refl _) id

structure Placed (loopThread : Θ) (s : FunctorHistory Θ φ) : Prop where
  returned : ∀ i ∈ s.returned, i < s.inserted.length
  position : ∀ t, isQueueing (s.loop.pc t) = true → s.position t < s.inserted.length
  foreign : s.loop.loopPc = .outside ∨ s.loop.loopPc = .entered → s.inserted ≠ [] →
    ∃ t, t ≠ loopThread

theorem Placed.call {t : Θ} {p : CallPc} (h : Placed loopThread s)
    (loop : s'.loop.pc = Function.update s.loop.pc t p)
    (keep : isQueueing p = true → isQueueing (s.loop.pc t) = true)
    (same : s'.loop.loopPc = s.loop.loopPc ∧ s'.position = s.position ∧
      s'.inserted = s.inserted)
    (returned : ∀ i ∈ s'.returned, i ∈ s.returned ∨
      i = s.position t ∧ isQueueing (s.loop.pc t) = true) : Placed loopThread s' := by
  obtain ⟨loopPc, position, inserted⟩ := same
  refine ⟨fun i hi => ?_, fun v queueing => ?_, ?_⟩
  · rw [inserted]
    rcases returned i hi with before | ⟨rfl, queueing⟩
    · exact h.returned i before
    · exact h.position t queueing
  · rw [position, inserted]
    refine h.position v ?_
    by_cases self : v = t
    · subst self
      rw [loop, Function.update_self] at queueing
      exact keep queueing
    · rwa [loop, Function.update_of_ne self] at queueing
  · rw [loopPc, inserted]
    exact h.foreign

omit [DecidableEq Θ] in
theorem Placed.advance (h : Placed loopThread s) (pc : s'.loop.pc = s.loop.pc)
    (same : s'.returned = s.returned ∧ s'.position = s.position ∧ s'.inserted = s.inserted)
    (before : s'.loop.loopPc = .outside ∨ s'.loop.loopPc = .entered →
      s.loop.loopPc = .outside ∨ s.loop.loopPc = .entered) : Placed loopThread s' := by
  obtain ⟨returned, position, inserted⟩ := same
  refine ⟨?_, ?_, fun early => ?_⟩
  · rw [returned, inserted]
    exact h.returned
  · rw [pc, position, inserted]
    exact h.position
  · rw [inserted]
    exact h.foreign (before early)

theorem next_placed {a : Action Θ φ} (h : Placed loopThread s)
    (hn : next loopThread s a = some s') : Placed loopThread s' := by
  obtain ⟨l, taken, rfl⟩ := next_loop hn
  cases a with
  | enter =>
    obtain ⟨ready, rfl⟩ := guard_met taken
    exact h.advance rfl ⟨rfl, rfl, rfl⟩ fun _ => .inl ready.1
  | test =>
    obtain ⟨ready, rfl⟩ := guard_met taken
    split_ifs <;> exact h.advance rfl ⟨rfl, rfl, rfl⟩ (by simp [observe])
  | handleRead =>
    obtain ⟨ready, rfl⟩ := guard_met taken
    exact h.advance rfl ⟨rfl, rfl, rfl⟩ id
  | runFunctor =>
    obtain ⟨ready, rfl⟩ := guard_met taken
    exact h.advance rfl ⟨rfl, rfl, rfl⟩ id
  | queueInLoop t f =>
    obtain ⟨ready, rfl⟩ := guard_met taken
    refine ⟨fun i hi => ?_, fun v queueing => ?_, fun early _ => ⟨t, fun own => ?_⟩⟩
    · simp only [observe, List.length_append]
      exact Nat.lt_add_right _ (h.returned i hi)
    · simp only [observe, List.length_append, List.length_cons, List.length_nil]
      by_cases self : v = t
      · rw [self, Function.update_self]
        exact Nat.lt_succ_self _
      · rw [Function.update_of_ne self]
        simp only [observe, goto_other _ self] at queueing
        exact Nat.lt_succ_of_lt (h.position v queueing)
    · have user := ready.2 own
      simp only [observe, goto] at early
      rcases early with early | early <;> simp [InUser, early] at user
  | queueCheck t =>
    obtain ⟨ready, same⟩ := guard_met taken
    have queueing : isQueueing (s.loop.pc t) = true := by
      rw [ready]
      rfl
    have loopPc : l.loopPc = s.loop.loopPc := by rw [← same]; rfl
    have pc : l.pc = Function.update s.loop.pc t (l.pc t) := by
      rw [← same, goto_self]
      rfl
    refine h.call (t := t) pc (fun _ => queueing) ⟨loopPc, rfl, rfl⟩ fun i hi => ?_
    simp only [observe] at hi
    split_ifs at hi
    · exact (List.mem_cons.mp hi).symm.imp id fun same => ⟨same, queueing⟩
    · exact .inl hi
  | queueWakeup t =>
    obtain ⟨ready, rfl⟩ := guard_met taken
    have queueing : isQueueing (s.loop.pc t) = true := by
      rw [ready]
      rfl
    exact h.call rfl (fun _ => queueing) ⟨rfl, rfl, rfl⟩ fun i hi =>
      (List.mem_cons.mp hi).symm.imp id fun same => ⟨same, queueing⟩
  | quit t =>
    obtain ⟨-, rfl⟩ := guard_met taken
    exact h.call (t := t) rfl (by simp [isQueueing]) ⟨rfl, rfl, rfl⟩ fun _ => .inl
  | quitCheck t =>
    obtain ⟨-, rfl⟩ := guard_met taken
    split_ifs <;> exact h.call (t := t) rfl (by simp [isQueueing]) ⟨rfl, rfl, rfl⟩ fun _ => .inl
  | quitWakeup t =>
    obtain ⟨-, rfl⟩ := guard_met taken
    exact h.call (t := t) rfl (by simp [isQueueing]) ⟨rfl, rfl, rfl⟩ fun _ => .inl
  | _ =>
    obtain ⟨-, rfl⟩ := guard_met taken
    exact h.advance rfl ⟨rfl, rfl, rfl⟩ (by simp [observe])

theorem reachable_placed {ok : FunctorHistory Θ φ → Action Θ φ → Prop}
    (h : (functorHistory loopThread).Reachable ok s) : Placed loopThread s := by
  refine h.invariant (P := Placed loopThread) (fun s₀ hi => ?_)
    fun _ _ _ hs _ hn => next_placed hs hn
  subst hi
  exact ⟨by simp [construct], by simp [construct, EventLoop.construct, isQueueing],
    by simp [construct]⟩

omit [DecidableEq Θ] in
theorem Prompt.covered {t : Θ} (placed : Placed loopThread s) (h : Prompt s (.quit t)) :
    ∀ i ∈ s.returned, Covered s i := fun i hi =>
  h.elim (fun draining => .inr ⟨draining, placed.returned i hi⟩) fun out => .inl (out i hi)

/-- What is due stays covered along every run whose calls of `quit` are prompt. -/
theorem due_covered (h : (functorHistory loopThread).Reachable Prompt s) :
    ∀ i ∈ s.due, Covered s i := by
  refine h.invariant_under (I := fun s => Ordered s ∧ Placed loopThread s)
    (P := fun s => ∀ i ∈ s.due, Covered s i)
    (fun _ hs => ⟨reachable_ordered hs, reachable_placed hs⟩) (fun s₀ hi => ?_) ?_
  · subst hi
    simp [construct]
  · intro s a s' known hs ha hn i hi
    have covered : Covered s i := by
      obtain ⟨l, taken, rfl⟩ := next_loop hn
      cases a with
      | quit t => exact (List.mem_append.mp hi).elim (ha.covered known.2 i) (hs i)
      | _ => exact hs i hi
    exact next_covered known.1 covered hn

theorem path_covered {i : ℕ} (ordered : Ordered s)
    (h : (functorHistory loopThread).Path Any s u) (covered : Covered s i) :
    Ordered u ∧ Covered u i :=
  h.stable (P := fun u => Ordered u ∧ Covered u i)
    (fun _ _ _ hs _ hn => ⟨next_ordered hs.1 hn, next_covered hs.1 hs.2 hn⟩) ⟨ordered, covered⟩

omit [DecidableEq Θ] in
theorem Covered.started {i : ℕ} (h : Covered s i) (ordered : Ordered s)
    (back : s.loop.loopPc = .returned) : i < s.started.length := by
  have idle := ordered.batch (by simp [back])
  have away : ¬Draining s := by simp [Draining, back]
  have out := h.resolve_right fun coming => away coming.1
  simpa [idle] using out

structure Undisturbed (s u : FunctorHistory Θ φ) : Prop where
  loopPc : u.loop.loopPc = s.loop.loopPc
  quit : u.loop.quit_ = s.loop.quit_
  functors : u.loop.functors = s.loop.functors
  started : u.started = s.started
  idle : ∀ t, s.loop.pc t = .idle → u.loop.pc t = .idle

omit [DecidableEq Θ] in
theorem Undisturbed.refl (s : FunctorHistory Θ φ) : Undisturbed s s :=
  ⟨rfl, rfl, rfl, rfl, fun _ => id⟩

omit [DecidableEq Θ] in
theorem Undisturbed.trans {v : FunctorHistory Θ φ} (h : Undisturbed s u) (k : Undisturbed u v) :
    Undisturbed s v :=
  ⟨k.loopPc.trans h.loopPc, k.quit.trans h.quit, k.functors.trans h.functors,
    k.started.trans h.started, fun t => k.idle t ∘ h.idle t⟩

def rest : CallPc → ℕ
  | .idle => 0
  | .waking => 1
  | .quitWaking => 1
  | .inserted => 2
  | .quitStored => 2

theorem goto_idle {t v : Θ} {p : CallPc} {l : EventLoop Θ φ} (busy : l.pc t ≠ .idle)
    (idle : l.pc v = .idle) : (l.goto t p).pc v = .idle := by
  have other : v ≠ t := by
    rintro rfl
    exact busy idle
  rw [goto_other l other]
  exact idle

theorem call_proceeds (loopThread : Θ) {t : Θ} (busy : s.loop.pc t ≠ .idle) :
    ∃ a u, next loopThread s a = some u ∧ Undisturbed s u ∧
      rest (u.loop.pc t) < rest (s.loop.pc t) := by
  cases at_ : s.loop.pc t with
  | idle => exact absurd at_ busy
  | waking =>
    refine ⟨.queueWakeup t, _, congrArg (Option.map _) (if_pos at_),
      ⟨rfl, rfl, rfl, rfl, fun _ => goto_idle busy⟩, ?_⟩
    simp [observe, EventLoop.wakeup, rest]
  | quitWaking =>
    refine ⟨.quitWakeup t, _, congrArg (Option.map _) (if_pos at_),
      ⟨rfl, rfl, rfl, rfl, fun _ => goto_idle busy⟩, ?_⟩
    simp [observe, EventLoop.wakeup, rest]
  | inserted =>
    refine ⟨.queueCheck t, _, congrArg (Option.map _) (if_pos at_),
      ⟨rfl, rfl, rfl, rfl, fun _ => goto_idle busy⟩, ?_⟩
    simp only [observe, goto_self]
    split_ifs <;> simp [rest]
  | quitStored =>
    refine ⟨.quitCheck t, _, congrArg (Option.map _) (if_pos at_), ?_, ?_⟩
    · split_ifs <;> exact ⟨rfl, rfl, rfl, rfl, fun _ => goto_idle busy⟩
    · split_ifs <;> simp [observe, rest]

theorem call_finishes (loopThread : Θ) (s : FunctorHistory Θ φ) (t : Θ) :
    ∃ u, (functorHistory loopThread).Path Any s u ∧ Undisturbed s u ∧ u.loop.pc t = .idle := by
  induction steps : rest (s.loop.pc t) using Nat.strongRecOn generalizing s with
  | ind n ih =>
    by_cases idle : s.loop.pc t = .idle
    · exact ⟨s, .refl s, .refl s, idle⟩
    · obtain ⟨a, m, hn, same, fewer⟩ := call_proceeds loopThread idle
      obtain ⟨u, run, undisturbed, done⟩ := ih _ (steps ▸ fewer) m rfl
      exact ⟨u, (System.Path.single trivial hn).trans run, same.trans undisturbed, done⟩

theorem test_returns (idle : s.loop.pc loopThread = .idle) (test : s.loop.loopPc = .test)
    (quit : s.loop.quit_ = true) :
    ∃ u, (functorHistory loopThread).Path Any s u ∧ u.loop.loopPc = .returned ∧
      u.started = s.started := by
  refine ⟨_, .single (a := .test) trivial (congrArg (Option.map _) (if_pos ⟨test, idle⟩)), ?_⟩
  rw [if_pos quit]
  exact ⟨rfl, rfl⟩

theorem batch_returns (idle : s.loop.pc loopThread = .idle) (running : s.loop.loopPc = .running)
    (quit : s.loop.quit_ = true) :
    ∃ u, (functorHistory loopThread).Path Any s u ∧ u.loop.loopPc = .returned ∧
      u.started = s.started ++ s.loop.functors := by
  induction batch : s.loop.functors generalizing s with
  | nil =>
    let t := { s with loop := { s.loop with callingPendingFunctors_ := false, loopPc := .test } }
    have hn : next loopThread s .endPending = some t :=
      congrArg (Option.map _) (if_pos ⟨⟨running, idle⟩, batch⟩)
    obtain ⟨u, run, back, started⟩ := test_returns (s := t) idle rfl quit
    exact ⟨u, (System.Path.single trivial hn).trans run, back, by rw [started, List.append_nil]⟩
  | cons f rest ih =>
    let t := { s with
      loop := { s.loop with functors := rest }
      started := s.started ++ [f] }
    have hn : next loopThread s .runFunctor = some t := by
      refine (congrArg (Option.map _) (if_pos ⟨⟨running, idle⟩, by simp [batch]⟩)).trans ?_
      simp [observe, batch, t]
    obtain ⟨u, run, back, started⟩ := ih (s := t) idle running quit rfl
    refine ⟨u, (System.Path.single trivial hn).trans run, back, ?_⟩
    rw [started, List.append_assoc]
    rfl

theorem entered_returns {v : Θ} (idle : s.loop.pc loopThread = .idle)
    (entered : s.loop.loopPc = .entered) (other : v ≠ loopThread) :
    ∃ u, (functorHistory loopThread).Path Any s u ∧ u.loop.loopPc = .returned ∧
      u.started = s.started := by
  let r := { s with loop := { s.loop with quit_ := false, loopPc := .test } }
  have reset : next loopThread s .reset = some r :=
    congrArg (Option.map _) (if_pos ⟨entered, idle⟩)
  obtain ⟨w, finish, same, ready⟩ := call_finishes loopThread r v
  have quit : ∃ q, next loopThread w (.quit v) = some q ∧ q.loop.pc loopThread = .idle ∧
      q.loop.loopPc = w.loop.loopPc ∧ q.loop.quit_ = true ∧ q.started = w.started := by
    refine ⟨_, congrArg (Option.map _) (if_pos ⟨ready, fun own => absurd own other⟩), ?_⟩
    exact ⟨(goto_other _ other.symm _).trans (same.idle _ idle), rfl, rfl, rfl⟩
  obtain ⟨q, hq, still, place, stored, started⟩ := quit
  obtain ⟨u, run, back, ends⟩ := test_returns still (place.trans same.loopPc) stored
  refine ⟨u, ?_, back, ends.trans (started.trans same.started)⟩
  exact ((System.Path.single trivial reset).trans (finish.tail trivial hq)).trans run

/-- A functor that is not covered when `quit` is called can be dropped. -/
theorem quit_drops {t : Θ} {i : ℕ} (placed : Placed loopThread s) (hi : i < s.inserted.length)
    (uncovered : ¬Covered s i) (hn : next loopThread s (.quit t) = some s') :
    ∃ u, (functorHistory loopThread).Path Any s' u ∧ u.loop.loopPc = .returned ∧
      u.started.length ≤ i := by
  simp only [Covered, not_or, not_and, Nat.not_lt] at uncovered
  obtain ⟨queued, away⟩ := uncovered
  have past : s.started.length ≤ i := Nat.le_trans (Nat.le_add_right _ _) queued
  obtain ⟨l, taken, rfl⟩ := next_loop hn
  obtain ⟨-, rfl⟩ := guard_met taken
  obtain ⟨m, finish, same, idle⟩ := call_finishes loopThread
    (s.observe { s.loop.goto t .quitStored with quit_ := true } (.quit t)) loopThread
  have loopPc : m.loop.loopPc = s.loop.loopPc := same.loopPc
  have started : m.started = s.started := same.started
  have functors : m.loop.functors = s.loop.functors := same.functors
  have foreign : s.loop.loopPc = .outside ∨ s.loop.loopPc = .entered → ∃ v, v ≠ loopThread :=
    fun early => placed.foreign early (List.length_pos_iff.mp (Nat.zero_lt_of_lt hi))
  cases place : s.loop.loopPc with
  | outside =>
    obtain ⟨v, other⟩ := foreign (.inl place)
    let e := { m with loop := { m.loop with looping_ := true, loopPc := .entered } }
    have enter : next loopThread m .enter = some e :=
      congrArg (Option.map _) (if_pos ⟨loopPc.trans place, idle⟩)
    obtain ⟨u, run, back, ends⟩ := entered_returns (s := e) idle rfl other
    refine ⟨u, (finish.tail trivial enter).trans run, back, ?_⟩
    rw [ends, started]
    exact past
  | entered =>
    obtain ⟨v, other⟩ := foreign (.inr place)
    obtain ⟨u, run, back, ends⟩ := entered_returns idle (loopPc.trans place) other
    refine ⟨u, finish.trans run, back, ?_⟩
    rw [ends, started]
    exact past
  | test =>
    obtain ⟨u, run, back, ends⟩ := test_returns idle (loopPc.trans place) same.quit
    refine ⟨u, finish.trans run, back, ?_⟩
    rw [ends, started]
    exact past
  | polling => exact absurd (away (.inl place)) (Nat.not_le_of_lt hi)
  | handling => exact absurd (away (.inr (.inl place))) (Nat.not_le_of_lt hi)
  | swapping => exact absurd (away (.inr (.inr place))) (Nat.not_le_of_lt hi)
  | running =>
    obtain ⟨u, run, back, ends⟩ := batch_returns idle (loopPc.trans place) same.quit
    refine ⟨u, finish.trans run, back, ?_⟩
    rw [ends, started, functors, List.length_append]
    exact queued
  | returned =>
    refine ⟨m, finish, loopPc.trans place, ?_⟩
    rw [started]
    exact past

/-- Along every run whose calls of `quit` are prompt: when `loop()` has returned, every
functor whose `queueInLoop` had returned before a call of `quit` has been started. In any
reachable state, a call of `quit` guarantees this for the calls returned so far exactly
when it is prompt. -/
theorem functors_run_before_return :
    (∀ s : FunctorHistory Θ φ, (functorHistory loopThread).Reachable Prompt s →
      s.loop.loopPc = .returned → ∀ i ∈ s.due, i < s.started.length) ∧
    ∀ (s s' : FunctorHistory Θ φ) (t : Θ), (functorHistory loopThread).Reachable Any s →
      next loopThread s (.quit t) = some s' →
        ((∀ u, (functorHistory loopThread).Path Any s' u → u.loop.loopPc = .returned →
          ∀ i ∈ s.returned, i < u.started.length) ↔ Prompt s (.quit t)) := by
  refine ⟨fun s h back i hi => (due_covered h i hi).started (reachable_ordered h) back,
    fun s s' t h hn => ⟨fun guaranteed => ?_, fun prompt u run back i hi => ?_⟩⟩
  · by_contra late
    simp only [Prompt, not_or, not_forall] at late
    obtain ⟨away, i, hi, queued⟩ := late
    have uncovered : ¬Covered s i := not_or.mpr ⟨queued, fun coming => away coming.1⟩
    have placed := reachable_placed h
    obtain ⟨u, run, back, dropped⟩ := quit_drops placed (placed.returned i hi) uncovered hn
    exact absurd (guaranteed u run back i hi) (Nat.not_lt_of_le dropped)
  · have ordered := reachable_ordered h
    have covered : Covered s' i :=
      next_covered ordered (prompt.covered (reachable_placed h) i hi) hn
    obtain ⟨ordered', covered'⟩ := path_covered (next_ordered ordered hn) run covered
    exact covered'.started ordered' back

theorem functors_run_before_return_polling :
    ∃ s : FunctorHistory Bool ℕ, (functorHistory true).Reachable Prompt s ∧
      s.loop.loopPc = .returned ∧ s.due = [0] ∧ s.started = [5] ∧
      ∀ i ∈ s.due, i < s.started.length := by
  have run : ((functorHistory true).execute Prompt (construct : FunctorHistory Bool ℕ)
      [.enter, .reset, .test, .queueInLoop false 5, .queueCheck false, .queueWakeup false,
        .quit false, .poll true, .handleRead, .callPending, .swap, .runFunctor, .endPending,
        .test]).map (fun s => (s.loop.loopPc, s.due, s.started)) =
      some (.returned, [0], [5]) := by decide +kernel
  obtain ⟨s, reached, ends⟩ := System.Reachable.of_replay rfl run
  simp only [Prod.mk.injEq] at ends
  exact ⟨s, reached, ends.1, ends.2.1, ends.2.2,
    functors_run_before_return.1 s reached ends.1⟩

/-- The loop runs a batch while another thread queues a functor, wakes the loop up and then
calls `quit`: the loop returns with the functor still queued. -/
theorem functor_dropped :
    ∃ s : FunctorHistory Bool ℕ, (functorHistory true).Reachable Any s ∧
      s.loop.loopPc = .returned ∧ s.due = [0] ∧ s.inserted = [5] ∧ s.started = [] := by
  have run : ((functorHistory true).execute Any (construct : FunctorHistory Bool ℕ)
      [.enter, .reset, .test, .poll false, .callPending, .swap, .queueInLoop false 5,
        .queueCheck false, .queueWakeup false, .quit false, .quitCheck false, .endPending,
        .test]).map (fun s => (s.loop.loopPc, s.due, s.inserted, s.started)) =
      some (.returned, [0], [5], []) := by decide +kernel
  obtain ⟨s, reached, ends⟩ := System.Reachable.of_replay rfl run
  simp only [Prod.mk.injEq] at ends
  exact ⟨s, reached, ends⟩

end Exit

end FunctorHistory

end TinyNetwork

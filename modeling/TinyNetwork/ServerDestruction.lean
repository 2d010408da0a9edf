import TinyNetwork.TcpServer

/-! Calls of a server after its destruction has begun. `closeCallback_` keeps a plain pointer
to the server and `connectDestroyed` is only queued to the sub loops, so a close that is
under way, or handled before a sub loop has run it, calls back. When none is, no call
comes late. -/
namespace TinyNetwork.ServerDestruction
open Transition PendingWork TcpServer

variable {Λ : Type*}

def FunctorReturns : TcpServer.Functor → Prop
  | .removeConnectionInLoop _ => True
  | _ => False

/-- An operation on its way to a call of the server. -/
def Returns : Op Λ → Prop
  | .handleClose _ => True
  | .removeConnection _ => True
  | .call f => FunctorReturns f
  | .runInLoop _ f => FunctorReturns f
  | .queueInLoop _ f => FunctorReturns f
  | .emplaceBack _ f => FunctorReturns f
  | _ => False

instance (f : TcpServer.Functor) : Decidable (FunctorReturns f) := by
  cases f <;> unfold FunctorReturns <;> infer_instance

instance (op : Op Λ) : Decidable (Returns op) := by
  cases op <;> unfold Returns <;> infer_instance

def Quiet (s : State Λ) : Prop :=
  ∀ l, (∀ op ∈ s.ops l, ¬Returns op) ∧ ∀ f ∈ s.pendingFunctors_ l, ¬FunctorReturns f

/-- The thread of `l` is about to handle a close: a hang-up without input, or the end of the
stream. -/
def Closes (s : State Λ) (l : Λ) (input : Input Λ) : Prop :=
  match s.ops l with
  | .handleEvent k revents :: _ => 0 < s.refs k ∧ revents &&& EPOLLHUP ≠ 0 ∧ revents &&& EPOLLIN = 0
  | .handleRead _ :: _ => input.read = 0
  | _ => False

instance (s : State Λ) (l : Λ) (input : Input Λ) : Decidable (Closes s l input) := by
  unfold Closes
  split <;> infer_instance

/-- The destruction begins while no close is under way, and none is handled after that. -/
def Orderly (s : State Λ) : Action Λ → Prop
  | .destroy _ _ => Quiet s
  | .step l input => s.destroying = true → ¬Closes s l input
  | _ => True

section Steps
variable [DecidableEq Λ] {s t : State Λ} {main l : Λ} {op : Op Λ} {rest : List (Op Λ)}
  {input : Input Λ} {r : State Λ × List (Op Λ)}

omit [DecidableEq Λ] in
theorem releases_quiet (held : List ℕ) : ∀ a ∈ held.map (Op.release (Λ := Λ)), ¬Returns a := by
  intro a ha
  obtain ⟨j, -, rfl⟩ := List.mem_map.mp ha
  exact id

theorem call_quiet {f : TcpServer.Functor} (off : ¬FunctorReturns f) :
    (∀ a ∈ (s.call f).2, ¬Returns a) ∧
      (s.call f).1.pendingFunctors_ = s.pendingFunctors_ ∧ (s.call f).1.calls = s.calls := by
  cases f with
  | connectEstablished k =>
    exact ⟨by simp [State.call, State.connectEstablished, Returns], rfl, rfl⟩
  | connectDestroyed k =>
    simp only [State.call, State.connectDestroyed]
    split_ifs
    · exact ⟨by simp [Returns], rfl, rfl⟩
    · exact ⟨by simp [Returns], rfl, rfl⟩
  | removeConnectionInLoop k => exact absurd trivial off
  | notify k => exact ⟨by simp [State.call, Returns], rfl, rfl⟩
  | task => exact ⟨by simp [State.call], rfl, rfl⟩

theorem callback_quiet (s : State Λ) (k : ℕ) (input : Input Λ) :
    (∀ a ∈ (s.callback k input).2, ¬Returns a) ∧
      (s.callback k input).1.pendingFunctors_ = s.pendingFunctors_ ∧
      (s.callback k input).1.calls = s.calls := by
  obtain ⟨frame, queues⟩ := s.callback_spec k input
  refine ⟨fun a ha => ?_, frame.pendingFunctors_, ?_⟩
  · rw [queues a ha]
    exact id
  · unfold State.callback
    split_ifs <;> rfl

omit [DecidableEq Λ] in
theorem handleEvent_quiet {k : ℕ} {revents : EventMask}
    (now : s.ops l = .handleEvent k revents :: rest) (opens : ¬Closes s l input) :
    ∀ a ∈ (s.handleEvent k revents).2, ¬Returns a := by
  simp only [Closes, now, not_and] at opens
  unfold State.handleEvent
  split_ifs with live
  · have stays : ¬(revents &&& EPOLLHUP ≠ 0 ∧ revents &&& EPOLLIN = 0) := fun hup =>
      opens live hup.1 hup.2
    simp only [State.handleEventWithGuard, if_neg stays, List.nil_append]
    split_ifs <;> simp [Returns]
  · simp

theorem queues_update {loop : Λ} {fs : List TcpServer.Functor}
    (queues : ∀ l, ∀ f ∈ s.pendingFunctors_ l, ¬FunctorReturns f)
    (here : ∀ f ∈ fs, ¬FunctorReturns f) :
    ∀ l, ∀ f ∈ Function.update s.pendingFunctors_ loop fs l, ¬FunctorReturns f :=
  forall_update (P := fun _ fs => ∀ f ∈ fs, ¬FunctorReturns f) queues here

/-- An operation that is on no way to the server starts none, unless it handles a close. -/
theorem perform_quiet (now : s.ops l = op :: rest) (off : ¬Returns op)
    (opens : ¬Closes s l input) (queues : ∀ l, ∀ f ∈ s.pendingFunctors_ l, ¬FunctorReturns f)
    (hp : s.perform main l input op = some r) :
    (∀ a ∈ r.2, ¬Returns a) ∧ (∀ l, ∀ f ∈ r.1.pendingFunctors_ l, ¬FunctorReturns f) ∧
      r.1.calls = s.calls := by
  have passes : ∀ {a : Op Λ} {held : List ℕ}, ¬Returns a →
      ∀ b ∈ a :: held.map .release, ¬Returns b := fun ha =>
    List.forall_mem_cons.mpr ⟨ha, releases_quiet _⟩
  cases op with
  | release k =>
    cases hp
    exact ⟨by simp, queues, rfl⟩
  | callback k =>
    cases hp
    obtain ⟨called, pending, calls⟩ := callback_quiet s k input
    exact ⟨called, pending ▸ queues, calls⟩
  | call f =>
    cases hp
    obtain ⟨called, pending, calls⟩ := call_quiet (s := s) off
    exact ⟨called, pending ▸ queues, calls⟩
  | runInLoop loop f =>
    cases hp
    refine ⟨passes ?_, queues, rfl⟩
    split_ifs <;> exact off
  | queueInLoop loop f =>
    cases hp
    exact ⟨passes off, queues, rfl⟩
  | emplaceBack loop f =>
    cases hp
    refine ⟨by simp [State.emplaceBack], queues_update queues fun g hg => ?_, rfl⟩
    rcases List.mem_append.mp hg with old | new
    · exact queues loop g old
    · exact List.mem_singleton.mp new ▸ off
  | handleEvent k revents =>
    cases hp
    refine ⟨handleEvent_quiet now opens, ?_, ?_⟩
    · unfold State.handleEvent
      split_ifs <;> exact queues
    · unfold State.handleEvent
      split_ifs <;> rfl
  | handleRead k =>
    cases hp
    have some_ : input.read ≠ 0 := by simpa only [Closes, now] using opens
    unfold State.handleRead
    split_ifs
    · exact ⟨by simp [Returns], queues, rfl⟩
    · exact ⟨by simp, queues, rfl⟩
  | handleWrite k =>
    cases hp
    unfold State.handleWrite
    split_ifs
    · exact ⟨by simp [Returns, FunctorReturns], queues, rfl⟩
    · exact ⟨by simp, queues, rfl⟩
    · exact ⟨by simp, queues, rfl⟩
  | handleClose k => exact absurd trivial off
  | removeConnection k => exact absurd trivial off
  | remove k =>
    cases hp
    exact ⟨by simp, queues, rfl⟩
  | newConnection =>
    simp only [State.perform] at hp
    cases accepted : input.accepted with
    | none =>
      rw [accepted] at hp
      cases hp
      exact ⟨by simp, queues, rfl⟩
    | some pair =>
      rw [accepted] at hp
      obtain ⟨sockfd, ioLoop⟩ := pair
      obtain ⟨-, rfl⟩ := guard_met hp
      exact ⟨by simp [Returns, FunctorReturns], queues, rfl⟩
  | doPendingFunctors =>
    cases hp
    refine ⟨fun a ha => ?_, queues_update queues (by simp), rfl⟩
    rcases List.mem_append.mp ha with call | release
    · obtain ⟨f, hf, rfl⟩ := List.mem_map.mp call
      exact queues l f hf
    · exact releases_quiet _ a release
  | destroyItem k =>
    cases hp
    unfold State.destroyItem
    split_ifs
    · exact ⟨by simp [Returns, FunctorReturns], queues, rfl⟩
    · exact ⟨by simp, queues, rfl⟩
  | quit loop =>
    cases hp
    exact ⟨by simp, queues, rfl⟩
  | join loop =>
    obtain ⟨-, rfl⟩ := guard_met hp
    exact ⟨releases_quiet _, queues_update queues (by simp), rfl⟩

theorem perform_life (hp : s.perform main l input op = some r) :
    r.1.destroying = s.destroying ∧ ∀ c ∈ r.1.calls, c ∈ s.calls ∨ c.2 = s.destroying := by
  have recorded : ∀ call : Call, ∀ c ∈ (s.record call).calls,
      c ∈ s.calls ∨ c.2 = s.destroying := fun call c hc => by
    rcases List.mem_append.mp hc with old | new
    · exact .inl old
    · exact .inr (List.mem_singleton.mp new ▸ rfl)
  cases op with
  | callback k =>
    cases hp
    refine ⟨?_, fun c hc => .inl ?_⟩
    · simp only [State.callback]
      split_ifs <;> rfl
    · rwa [(callback_quiet s k input).2.2] at hc
  | call f =>
    cases hp
    cases f with
    | connectDestroyed k =>
      simp only [State.call, State.connectDestroyed]
      split_ifs <;> exact ⟨rfl, fun _ => .inl⟩
    | removeConnectionInLoop k =>
      refine ⟨((s.record (.removeConnectionInLoop k)).erase_frame k).2.2.1, fun c hc => ?_⟩
      refine recorded (.removeConnectionInLoop k) c ?_
      simp only [State.call, State.removeConnectionInLoop, State.erase] at hc
      split_ifs at hc <;> exact hc
    | _ => exact ⟨rfl, fun _ => .inl⟩
  | handleEvent k revents =>
    cases hp
    unfold State.handleEvent
    split_ifs <;> exact ⟨rfl, fun _ => .inl⟩
  | handleRead k =>
    cases hp
    unfold State.handleRead
    split_ifs <;> exact ⟨rfl, fun _ => .inl⟩
  | handleWrite k =>
    cases hp
    unfold State.handleWrite
    split_ifs <;> exact ⟨rfl, fun _ => .inl⟩
  | removeConnection k =>
    cases hp
    exact ⟨rfl, recorded (.removeConnection k)⟩
  | newConnection =>
    simp only [State.perform] at hp
    cases accepted : input.accepted with
    | none =>
      rw [accepted] at hp
      cases hp
      exact ⟨rfl, fun _ => .inl⟩
    | some pair =>
      rw [accepted] at hp
      obtain ⟨-, rfl⟩ := guard_met hp
      exact ⟨rfl, fun _ => .inl⟩
  | destroyItem k =>
    cases hp
    unfold State.destroyItem
    split_ifs <;> exact ⟨rfl, fun _ => .inl⟩
  | join loop =>
    obtain ⟨-, rfl⟩ := guard_met hp
    exact ⟨rfl, fun _ => .inl⟩
  | _ =>
    cases hp
    exact ⟨rfl, fun _ => .inl⟩

structure Punctual (s : State Λ) : Prop where
  quiet : s.destroying = true → Quiet s
  early : ∀ c ∈ s.calls, c.2 = false

theorem Quiet.ops (h : Quiet s) {ops : List (Op Λ)} (here : ∀ op ∈ ops, ¬Returns op) :
    Quiet { s with ops := Function.update s.ops l ops } := fun j =>
  ⟨forall_update (P := fun _ ops => ∀ op ∈ ops, ¬Returns op) (fun j => (h j).1) here j, (h j).2⟩

theorem Punctual.step (h : Punctual s) (orderly : s.destroying = true → ¬Closes s l input)
    (now : s.ops l = op :: rest) (hp : s.perform main l input op = some r) :
    Punctual { r.1 with ops := Function.update s.ops l (r.2 ++ rest) } := by
  obtain ⟨life, calls⟩ := perform_life hp
  by_cases begun : s.destroying = true
  · have quiet := h.quiet begun
    have mine := (quiet l).1
    rw [now] at mine
    obtain ⟨called, queues, same⟩ := perform_quiet now (mine op List.mem_cons_self)
      (orderly begun) (fun j => (quiet j).2) hp
    have kept : Quiet { s with ops := Function.update s.ops l (r.2 ++ rest) } :=
      quiet.ops fun a ha => by
        rcases List.mem_append.mp ha with new | old
        · exact called a new
        · exact mine a (List.mem_cons_of_mem op old)
    exact ⟨fun _ j => ⟨(kept j).1, queues j⟩, same ▸ h.early⟩
  · refine ⟨fun after => absurd (life.symm.trans after) begun, fun c hc => ?_⟩
    rcases calls c hc with old | new
    · exact h.early c old
    · exact new.trans (Bool.eq_false_iff.mpr begun)

variable [Fintype Λ]

theorem Punctual.next {a : Action Λ} (h : Punctual s) (orderly : Orderly s a)
    (hn : next main s a = some t) : Punctual t := by
  cases a with
  | iterate l active =>
    obtain ⟨-, rfl⟩ := guard_met hn
    have taken : ∀ op ∈ active.map (Active.op (Λ := Λ)) ++ [.doPendingFunctors], ¬Returns op :=
      round_spec (fun a _ => by cases a <;> exact id) id
    exact ⟨fun begun => (h.quiet begun).ops taken, h.early⟩
  | step l input =>
    obtain ⟨op, rest, r, now, hp, rfl⟩ := next_step hn
    exact h.step orderly now hp
  | post l =>
    cases hn
    refine ⟨fun begun j => ⟨(h.quiet begun j).1, ?_⟩, h.early⟩
    refine queues_update (fun j => (h.quiet begun j).2) (fun f hf => ?_) j
    rcases List.mem_append.mp hf with old | new
    · exact (h.quiet begun l).2 f old
    · rw [List.mem_singleton.mp new]
      exact id
  | destroy order threads =>
    obtain ⟨-, rfl⟩ := guard_met hn
    have quiet : Quiet s := orderly
    refine ⟨fun _ => ?_, h.early⟩
    refine quiet.ops fun op hop => ?_
    rcases List.mem_append.mp hop with new | old
    · exact teardown_spec (P := fun op => ¬Returns op) order threads (fun _ => id)
        (fun _ => ⟨id, id⟩) op new
    · exact (quiet main).1 op old

/-- When the destruction begins while no close is under way and none is handled later, no call
of the server starts after it has begun. -/
theorem no_late_call (h : (server main).Reachable Orderly s) : ∀ c ∈ s.calls, c.2 = false := by
  have punctual : Punctual s := by
    refine h.invariant (P := Punctual) (fun s₀ hi => ?_)
      fun _ _ _ hs orderly hn => hs.next orderly hn
    obtain ⟨-, -, alive, calls, -⟩ := hi
    exact ⟨fun begun => absurd (alive.symm.trans begun) (by decide), by simp [calls]⟩
  exact punctual.early

end Steps

instance (s : State Bool) (a : Action Bool) : Decidable (Orderly s a) := by
  cases a <;> unfold Orderly <;> try unfold Quiet
  all_goals infer_instance

theorem no_late_call_closed_before :
    ∃ s : State Bool, (server true).Reachable Orderly s ∧ s.destroying = true ∧
      s.calls ≠ [] ∧ ∀ c ∈ s.calls, c.2 = false := by
  have run : ((server true).execute Orderly sample
      (accepting ++ hangingUp ++ [.iterate true []] ++ List.replicate 6 (.step true idle) ++
        [.destroy [] [false], .step true idle, .step true idle])).map
      (fun s => (s.destroying, s.calls)) =
      some (true, [(.removeConnection 1, false), (.removeConnectionInLoop 1, false)]) := by
    decide +kernel
  obtain ⟨s, reached, ends⟩ := System.Reachable.of_replay sample_initial run
  simp only [Prod.mk.injEq] at ends
  exact ⟨s, reached, ends.1, by simp [ends.2], no_late_call reached⟩

/-- The sub loop reads the end of the stream while the server is destroyed, or has done so just
before: `removeConnection` and `removeConnectionInLoop` start on a server that is gone. -/
theorem late_calls :
    (∃ s : State Bool, (server true).Reachable Any s ∧ (.removeConnection 1, true) ∈ s.calls) ∧
      ∃ s : State Bool, (server true).Reachable Any s ∧
        (.removeConnectionInLoop 1, true) ∈ s.calls := by
  have direct : ((server true).execute Any sample
      (accepting ++ [.destroy [1] [false]] ++ closing ++
        List.replicate 3 (.step false idle))).map (·.calls) =
      some [(.removeConnection 1, true)] := by decide +kernel
  have queued : ((server true).execute Any sample
      (accepting ++ closing ++ List.replicate 11 (.step false idle) ++ [.destroy [1] [false]] ++
        List.replicate 10 (.step true idle) ++
        [.iterate true [], .step true idle, .step true idle])).map (·.calls) =
      some [(.removeConnection 1, false), (.removeConnectionInLoop 1, true)] := by decide +kernel
  obtain ⟨s, reached, ends⟩ := System.Reachable.of_replay sample_initial direct
  obtain ⟨t, reached', ends'⟩ := System.Reachable.of_replay sample_initial queued
  exact ⟨⟨s, reached, by simp [ends]⟩, t, reached', by simp [ends']⟩

end TinyNetwork.ServerDestruction

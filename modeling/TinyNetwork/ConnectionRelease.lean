import TinyNetwork.ConnectionOwnership

/-! What becomes of the connections of a living server. An entry of `connections_` waits to be
established, is up, or is closed with its removal on the way. Without new input the threads come
to rest, and then a connection is up and held by its entry alone, or it has been destroyed. -/
namespace TinyNetwork.ConnectionRelease
open Transition PendingWork TcpServer PointerAccounts ConnectionOwnership

variable {Λ : Type*}

def unlists (k : ℕ) : TcpServer.Functor → ℕ
  | .removeConnectionInLoop j => if j = k then 1 else 0
  | _ => 0

def bound (v : TcpServer.Functor → ℕ) : Op Λ → ℕ
  | .removeConnection k => v (.removeConnectionInLoop k)
  | op => carried v op

def Up (s : State Λ) (k : ℕ) : Prop := Registered s k ∧ ¬Closed s k

variable [Fintype Λ]

def expecting (s : State Λ) (v : TcpServer.Functor → ℕ) : ℕ :=
  tally (bound v) s.ops + tally v s.pendingFunctors_

def Entry (s : State Λ) (k : ℕ) : Prop :=
  0 < expecting s (establishes k) ∨ Up s k ∨ Closed s k ∧ 0 < expecting s (unlists k)

section Calls
variable [DecidableEq Λ] {s : State Λ} {main l : Λ} {op : Op Λ} {rest called : List (Op Λ)}
  {input : Input Λ} {r : State Λ × List (Op Λ)} {v : TcpServer.Functor → ℕ}

theorem expecting_body {t : State Λ} (now : s.ops l = op :: rest)
    (pending : t.pendingFunctors_ = s.pendingFunctors_)
    (passed : bound v op ≤ load (bound v) called) :
    expecting s v ≤ expecting { t with ops := Function.update s.ops l (called ++ rest) } v := by
  have moved := tally_step (bound v) called now
  simp only [expecting, pending]
  omega

theorem perform_expecting (now : s.ops l = op :: rest)
    (hp : s.perform main l input op = some r) (uncalled : ∀ f, op = .call f → v f = 0)
    (alive : ∀ loop, op ≠ .join loop) :
    expecting s v ≤ expecting { r.1 with ops := Function.update s.ops l (r.2 ++ rest) } v := by
  cases op with
  | callback k =>
    cases hp
    exact expecting_body now (s.callback_spec k input).1.pendingFunctors_ (Nat.zero_le _)
  | call f =>
    cases hp
    have same : (s.call f).1.pendingFunctors_ = s.pendingFunctors_ := by
      cases f with
      | connectDestroyed k =>
        simp only [State.call, State.connectDestroyed]
        split_ifs <;> rfl
      | removeConnectionInLoop k => exact (s.removeConnectionInLoop_passive k).pendingFunctors_
      | _ => rfl
    exact expecting_body now same ((uncalled f rfl).le.trans (Nat.zero_le _))
  | runInLoop loop f =>
    cases hp
    refine expecting_body now rfl ?_
    change v f ≤ load (bound v)
      ((if l = loop then .call f else .queueInLoop loop f) :: f.held.map .release)
    rw [load_cons]
    split_ifs <;> exact Nat.le_add_right ..
  | queueInLoop loop f =>
    cases hp
    exact expecting_body now rfl (Nat.le_add_right ..)
  | emplaceBack loop f =>
    cases hp
    have moved := tally_step (bound v) [] now
    have gained := tally_snoc v s.pendingFunctors_ loop f
    simp only [bound, carried, load_nil] at moved
    simp only [expecting, State.emplaceBack] at gained ⊢
    change _ ≤ tally (bound v) (Function.update s.ops l rest) + _
    change tally (bound v) (Function.update s.ops l rest) + _ = _ at moved
    omega
  | handleEvent k revents =>
    cases hp
    exact expecting_body now (s.handleEvent_passive k revents).pendingFunctors_ (Nat.zero_le _)
  | handleRead k =>
    cases hp
    exact expecting_body now (s.handleRead_passive k input.read).pendingFunctors_ (Nat.zero_le _)
  | handleWrite k =>
    cases hp
    refine expecting_body now ?_ (Nat.zero_le _)
    unfold State.handleWrite
    split_ifs <;> rfl
  | removeConnection k =>
    cases hp
    exact expecting_body now rfl (Nat.le_add_right ..)
  | newConnection =>
    rcases State.newConnection_cases hp with rfl | ⟨sockfd, ioLoop, -, rfl⟩
    · exact expecting_body now rfl (Nat.zero_le _)
    · exact expecting_body now rfl (Nat.zero_le _)
  | doPendingFunctors =>
    cases hp
    have moved := tally_step (bound v) (s.doPendingFunctors l).2 now
    have lost := tally_clear v s.pendingFunctors_ l
    have silent : load (bound v)
        (((s.pendingFunctors_ l).flatMap Functor.held).map (Op.release (Λ := Λ))) = 0 :=
      load_eq_zero fun a ha => by
        obtain ⟨j, -, rfl⟩ := List.mem_map.mp ha
        rfl
    have weighs : ∀ f, bound v (Op.call (Λ := Λ) f) = v f := fun _ => rfl
    have calls : load (bound v) (s.doPendingFunctors l).2 = load v (s.pendingFunctors_ l) := by
      rw [State.doPendingFunctors, load_append, load_map weighs, silent, Nat.add_zero]
    rw [calls] at moved
    simp only [bound, carried] at moved
    simp only [expecting]
    show _ ≤ _ + tally v (Function.update s.pendingFunctors_ l [])
    omega
  | destroyItem k =>
    cases hp
    exact expecting_body now (s.destroyItem_passive k).pendingFunctors_ (Nat.zero_le _)
  | join loop => exact absurd rfl (alive loop)
  | _ =>
    cases hp
    exact expecting_body now rfl (Nat.zero_le _)

end Calls

section States
variable [DecidableEq Λ] {s t : State Λ} {main l : Λ} {op : Op Λ} {rest : List (Op Λ)}
  {input : Input Λ} {r : State Λ × List (Op Λ)} {j k : ℕ}

def Advances (s t : State Λ) (op : Op Λ) (j : ℕ) : Prop :=
  (Closed s j → Closed t j) ∧ (Up s j → Up t j ∨ op = .handleClose j)

omit [Fintype Λ] [DecidableEq Λ] in
theorem advances_same (conns : t.conns = s.conns) (channels_ : t.channels_ = s.channels_) :
    Advances s t op j := by
  simp only [Advances, Up, Registered, Closed, conns, channels_]
  exact ⟨id, .inl⟩

omit [Fintype Λ] [DecidableEq Λ] in
theorem advances_setState {state : StateE}
    (here : Advances s (s.setState k state) op k) : Advances s (s.setState k state) op j := by
  by_cases same : j = k
  · exact same ▸ here
  · simp only [Advances, Up, registered_setState, Closed, s.setState_other state same]
    exact ⟨id, .inl⟩

theorem perform_advances (h : Sound s) (accounted : Accounted s) (distinct : Distinct s)
    (now : s.ops l = op :: rest) (hp : s.perform main l input op = some r) (j : ℕ) :
    Advances s r.1 op j := by
  have ready := h.head now
  cases op with
  | callback k =>
    cases hp
    unfold State.callback
    by_cases connected : (s.conns k).state_ = .kConnected
    · have writes : (if input.writing then s.updateChannel k else s) = s := by
        rw [s.updateChannel_self (h.connected k connected), ite_self]
      simp only [if_pos connected, writes]
      refine advances_setState ⟨fun closed => absurd (closed.symm.trans connected) (by decide),
        fun up => .inl ⟨registered_setState.mpr up.1, ?_⟩⟩
      rw [Closed, s.setState_self]
      split_ifs <;> decide
    · simp only [if_neg connected]
      exact advances_same rfl rfl
  | call f =>
    cases hp
    cases f with
    | connectEstablished k =>
      have live := (accounted.used (k := k) now (by simp [uses, Functor.held])).2
      obtain ⟨connecting, -, -⟩ : Waiting s l k := ready
      by_cases same : j = k
      · subst same
        exact ⟨fun closed => absurd (closed.symm.trans connecting) (by decide),
          fun up => absurd connecting (h.established j up.1)⟩
      · have state := s.setState_other .kConnected same
        refine ⟨fun closed => state.trans closed, fun up => .inl ⟨?_, fun closed => up.2 ?_⟩⟩
        · have free := h.free accounted distinct live up.1 same
          change Registered ((s.setState k .kConnected).setChannel k (some k)) j
          rw [registered_setChannel, if_neg]
          · exact registered_setState.mpr up.1
          · simp only [State.setState_ioLoop, State.setState_sockfd]
            exact fun own => free own.2
        · exact state.symm.trans closed
    | connectDestroyed k =>
      obtain ⟨closed, -⟩ : Closed s k ∧ (s.conns k).ioLoop = l := ready
      have quiet : s.connectDestroyed k = (s, [.remove k]) :=
        if_neg fun connected => absurd (closed.symm.trans connected) (by decide)
      rw [State.call, quiet]
      exact advances_same rfl rfl
    | removeConnectionInLoop k =>
      obtain ⟨conns, channels_, -⟩ := s.removeConnectionInLoop_passive k
      exact advances_same conns channels_
    | notify k => exact advances_same rfl rfl
    | task => exact advances_same rfl rfl
  | handleEvent k revents =>
    cases hp
    obtain ⟨conns, channels_, -⟩ := s.handleEvent_passive k revents
    exact advances_same conns channels_
  | handleRead k =>
    cases hp
    obtain ⟨conns, channels_, -⟩ := s.handleRead_passive k input.read
    exact advances_same conns channels_
  | handleWrite k =>
    cases hp
    obtain ⟨loop, mapped⟩ : Serving s l k := ready
    unfold State.handleWrite
    rw [s.updateChannel_self (loop ▸ mapped)]
    split_ifs <;> exact advances_same rfl rfl
  | handleClose k =>
    cases hp
    obtain ⟨loop, mapped⟩ : Serving s l k := ready
    have reg : Registered s k := by
      rw [Registered, loop]
      exact mapped
    unfold State.handleClose
    rw [State.updateChannel_self _ (registered_setState.mpr reg)]
    exact advances_setState ⟨fun _ => s.setState_self .., fun _ => .inr rfl⟩
  | remove k =>
    cases hp
    obtain ⟨closed, -⟩ : Closed s k ∧ (s.conns k).ioLoop = l := ready
    have live := (accounted.used (k := k) now (by simp [uses])).2
    refine ⟨id, fun up => .inl ⟨?_, up.2⟩⟩
    have other : j ≠ k := fun same => up.2 (same ▸ closed)
    rw [registered_setChannel, if_neg fun own => h.free accounted distinct live up.1 other own.2]
    exact up.1
  | newConnection =>
    rcases State.newConnection_cases hp with rfl | ⟨sockfd, ioLoop, -, rfl⟩
    · exact advances_same rfl rfl
    · by_cases new : j = s.nextConnId_
      · obtain ⟨-, unregistered, unclosed, -⟩ := h.absent accounted (Nat.le_of_eq new.symm)
        exact ⟨fun closed => absurd closed unclosed, fun up => absurd up.1 unregistered⟩
      · simp only [Advances, Up, Registered, Closed, Function.update_of_ne new]
        exact ⟨id, .inl⟩
  | destroyItem k => exact ready.elim
  | quit loop => exact ready.elim
  | join loop => exact ready.elim
  | _ =>
    cases hp
    exact advances_same rfl rfl

end States

section Table
variable [DecidableEq Λ] {s t : State Λ} {main l : Λ} {op : Op Λ} {rest : List (Op Λ)}
  {input : Input Λ} {r : State Λ × List (Op Λ)} {j k : ℕ}

omit [Fintype Λ] [DecidableEq Λ] in
theorem erase_connections (s : State Λ) (k : ℕ) :
    (s.erase k).connections_ = s.connections_.erase k := by
  unfold State.erase
  split_ifs with mem
  · rfl
  · exact (List.erase_of_not_mem mem).symm

omit [Fintype Λ] in
theorem perform_connections (hp : s.perform main l input op = some r)
    (plain : op = .newConnection → input.accepted = none) (alive : ∀ k, op ≠ .destroyItem k) :
    (r.1.connections_ = s.connections_ ∧ ∀ k, op ≠ .call (.removeConnectionInLoop k)) ∨
      ∃ k, op = .call (.removeConnectionInLoop k) ∧ r.1.connections_ = s.connections_.erase k := by
  by_cases stays : moves op = false
  · obtain ⟨held, borrows⟩ := perform_borrows hp stays
    refine .inl ⟨borrows.frame.connections_, fun k same => ?_⟩
    subst same
    cases stays
  cases op with
  | call f =>
    cases f with
    | removeConnectionInLoop k =>
      cases hp
      exact .inr ⟨k, rfl, erase_connections _ k⟩
    | _ => exact absurd rfl stays
  | newConnection =>
    simp only [State.perform, plain rfl] at hp
    cases hp
    exact .inl ⟨rfl, by simp⟩
  | destroyItem k => exact absurd rfl (alive k)
  | join loop =>
    obtain ⟨-, rfl⟩ := guard_met hp
    exact .inl ⟨rfl, by simp⟩
  | release k =>
    cases hp
    exact .inl ⟨rfl, by simp⟩
  | emplaceBack loop f =>
    cases hp
    exact .inl ⟨rfl, by simp⟩
  | doPendingFunctors =>
    cases hp
    exact .inl ⟨rfl, by simp⟩
  | _ => exact absurd rfl stays

/-- The table has no entry twice, and each one is accounted for. -/
structure Listed (s : State Λ) : Prop where
  nodup : s.connections_.Nodup
  entry : ∀ k ∈ s.connections_, Entry s k

theorem Listed.stays (h : Listed s) (sound : Sound s) (accounted : Accounted s)
    (distinct : Distinct s) (now : s.ops l = op :: rest)
    (hp : s.perform main l input op = some r) (mem : j ∈ s.connections_)
    (kept : op ≠ .call (.removeConnectionInLoop j)) :
    Entry { r.1 with ops := Function.update s.ops l (r.2 ++ rest) } j := by
  have ready := sound.head now
  have alive : ∀ loop, op ≠ .join loop := fun loop same => by
    subst same
    exact ready
  have advances := perform_advances sound accounted distinct now hp j
  rcases h.entry j mem with waits | up | ⟨closed, leaves⟩
  · by_cases called : op = .call (.connectEstablished j)
    · subst called
      cases hp
      refine .inr (.inl ⟨?_, fun closed => ?_⟩)
      · change Registered ((s.setState j .kConnected).setChannel j (some j)) j
        rw [registered_setChannel, if_pos ⟨rfl, rfl⟩]
      · exact absurd ((s.setState_self j .kConnected).symm.trans closed) (by decide)
    · refine .inl (Nat.lt_of_lt_of_le waits (perform_expecting now hp (fun f same => ?_) alive))
      cases f with
      | connectEstablished k =>
        have other : k ≠ j := fun own => called (own ▸ same)
        simp [establishes, other]
      | _ => rfl
  · rcases advances.2 up with still | same
    · exact .inr (.inl still)
    · subst same
      cases hp
      refine .inr (.inr ⟨s.setState_self .., ?_⟩)
      have moved := tally_step (bound (unlists j))
        [.callback j, .removeConnection j, .release j] now
      have zero : bound (unlists j) (Op.handleClose (Λ := Λ) j) = 0 := rfl
      have one : load (bound (unlists j))
          [Op.callback (Λ := Λ) j, .removeConnection j, .release j] = 1 := by
        simp [bound, carried, unlists]
      rw [zero, one] at moved
      unfold expecting
      change 0 < tally (bound (unlists j))
        (Function.update s.ops l ([.callback j, .removeConnection j, .release j] ++ rest)) + _
      omega
  · refine .inr (.inr ⟨advances.1 closed, Nat.lt_of_lt_of_le leaves
      (perform_expecting now hp (fun f same => ?_) alive)⟩)
    cases f with
    | removeConnectionInLoop k =>
      have other : k ≠ j := fun own => kept (own ▸ same)
      simp [unlists, other]
    | _ => rfl

theorem Listed.perform (h : Listed s) (sound : Sound s) (accounted : Accounted s)
    (distinct : Distinct s) (now : s.ops l = op :: rest)
    (hp : s.perform main l input op = some r) :
    Listed { r.1 with ops := Function.update s.ops l (r.2 ++ rest) } := by
  have ready := sound.head now
  by_cases plain : op = .newConnection → input.accepted = none
  · have alive : ∀ k, op ≠ .destroyItem k := fun k same => by
      subst same
      exact ready
    rcases perform_connections hp plain alive with ⟨same, other⟩ | ⟨k, rfl, gone⟩
    · exact ⟨same ▸ h.nodup, fun j mem =>
        h.stays sound accounted distinct now hp (same ▸ mem) (other j)⟩
    · refine ⟨gone ▸ h.nodup.erase k, fun j mem => ?_⟩
      have mem : j ∈ s.connections_.erase k := gone ▸ mem
      refine h.stays sound accounted distinct now hp (List.mem_of_mem_erase mem) fun erasing => ?_
      simp only [Op.call.injEq, TcpServer.Functor.removeConnectionInLoop.injEq] at erasing
      subst erasing
      exact (List.Nodup.not_mem_erase h.nodup) mem
  · obtain ⟨rfl, accepts⟩ := Classical.not_imp.mp plain
    obtain ⟨pair, accepted⟩ := Option.ne_none_iff_exists'.mp accepts
    have taken := hp
    simp only [State.perform, accepted] at taken
    obtain ⟨-, rfl⟩ := guard_met taken
    obtain ⟨absent, -⟩ := sound.absent accounted (Nat.le_refl s.nextConnId_)
    refine ⟨List.nodup_cons.mpr ⟨absent, h.nodup⟩, fun j mem => ?_⟩
    rcases List.mem_cons.mp mem with rfl | old
    · refine .inl ?_
      have moved := tally_step (bound (establishes s.nextConnId_))
        [.runInLoop pair.2 (.connectEstablished s.nextConnId_), .release s.nextConnId_] now
      have zero : bound (establishes s.nextConnId_) (Op.newConnection (Λ := Λ)) = 0 := rfl
      have one : load (bound (establishes s.nextConnId_))
          [Op.runInLoop pair.2 (.connectEstablished s.nextConnId_), .release s.nextConnId_] =
            1 := by
        simp [bound, carried, establishes]
      rw [zero, one] at moved
      unfold expecting
      change 0 < tally (bound (establishes s.nextConnId_)) (Function.update s.ops l
        ([.runInLoop pair.2 (.connectEstablished s.nextConnId_), .release s.nextConnId_] ++ rest)) +
          _
      omega
    · exact h.stays sound accounted distinct now hp old (by simp)

end Table

section Costs
variable [DecidableEq Λ] {s t : State Λ} {main l : Λ} {op : Op Λ} {rest : List (Op Λ)}
  {input : Input Λ} {r : State Λ × List (Op Λ)} {k : ℕ}

def callCost : TcpServer.Functor → ℕ
  | .connectEstablished _ => 3
  | .connectDestroyed _ => 4
  | .removeConnectionInLoop _ => 12
  | .notify _ => 2
  | .task => 1

def queueCost (f : TcpServer.Functor) : ℕ := callCost f + f.held.length + 1

def cost : Op Λ → ℕ
  | .call f => callCost f
  | .emplaceBack _ f => queueCost f + 3
  | .queueInLoop _ f => queueCost f + f.held.length + 4
  | .runInLoop _ f => queueCost f + 2 * f.held.length + 5
  | .removeConnection _ => 22
  | .handleClose _ => 25
  | .handleRead _ => 26
  | .handleWrite _ => 10
  | .handleEvent _ _ => 63
  | _ => 1

def wakeCost (s : State Λ) (l : Λ) : ℕ :=
  if s.pendingFunctors_ l ≠ [] ∧ .doPendingFunctors ∉ s.ops l then 2 else 0

def remaining (s : State Λ) : ℕ :=
  tally cost s.ops + tally queueCost s.pendingFunctors_ + ∑ l, wakeCost s l

/-- No new input: no connection, and callbacks that queue nothing. A round begins only for a
queue that has something. -/
def Settled (s : State Λ) : Action Λ → Prop
  | .iterate l active => active.length = 0 ∧ s.pendingFunctors_ l ≠ []
  | .step _ input => input.accepted.isNone ∧ input.queued = 0
  | .post _ => False
  | .destroy _ _ => False

instance (s : State Λ) : (a : Action Λ) → Decidable (Settled s a)
  | .iterate l active => inferInstanceAs (Decidable (active.length = 0 ∧ s.pendingFunctors_ l ≠ []))
  | .step _ input => inferInstanceAs (Decidable (input.accepted.isNone ∧ input.queued = 0))
  | .post _ => inferInstanceAs (Decidable False)
  | .destroy _ _ => inferInstanceAs (Decidable False)

theorem wakeCosts_step (loop : Λ) (given taken : ℕ)
    (step : ∀ m, wakeCost t m + (if m = loop then given else 0) ≤
      wakeCost s m + if m = loop then taken else 0) :
    ∑ m, wakeCost t m + given ≤ ∑ m, wakeCost s m + taken := by
  have total := Finset.sum_le_sum fun m (_ : m ∈ Finset.univ) => step m
  simpa only [Finset.sum_add_distrib, Finset.sum_ite_eq', Finset.mem_univ, if_true] using total

theorem wakeCosts_le (queue : ∀ m, t.pendingFunctors_ m ≠ [] → s.pendingFunctors_ m ≠ [])
    (round : ∀ m, t.pendingFunctors_ m ≠ [] →
      .doPendingFunctors ∈ s.ops m → .doPendingFunctors ∈ t.ops m) :
    ∑ m, wakeCost t m ≤ ∑ m, wakeCost s m := by
  refine Finset.sum_le_sum fun m _ => ?_
  unfold wakeCost
  split_ifs with after before
  · exact Nat.le_refl _
  · exact absurd ⟨queue m after.1, fun mem => after.2 (round m after.1 mem)⟩ before
  · exact Nat.zero_le _
  · exact Nat.le_refl _

omit [Fintype Λ] [DecidableEq Λ] in
theorem cost_releases (held : List ℕ) :
    load (cost (Λ := Λ)) (held.map .release) = held.length := by
  induction held with
  | nil => rfl
  | cons k held ih =>
    have one : cost (Op.release (Λ := Λ) k) = 1 := rfl
    rw [List.map_cons, load_cons, ih, one, List.length_cons, Nat.add_comm]

omit [Fintype Λ] [DecidableEq Λ] in
theorem cost_batch (fs : List TcpServer.Functor) :
    load (cost (Λ := Λ)) (fs.map .call ++ (fs.flatMap Functor.held).map .release) ≤
      load queueCost fs := by
  rw [load_append, cost_releases]
  induction fs with
  | nil => exact Nat.le_refl _
  | cons f fs ih =>
    simp only [List.map_cons, load_cons, List.flatMap_cons, List.length_append, cost, queueCost]
      at ih ⊢
    omega

omit [Fintype Λ] in
theorem call_cost (s : State Λ) (f : TcpServer.Functor) :
    load cost (s.call f).2 < callCost f ∧ (s.call f).1.pendingFunctors_ = s.pendingFunctors_ := by
  cases f with
  | connectEstablished k =>
    exact ⟨by simp [State.call, State.connectEstablished, cost, callCost], rfl⟩
  | connectDestroyed k =>
    simp only [State.call, State.connectDestroyed]
    split_ifs
    · exact ⟨by simp [cost, callCost], rfl⟩
    · exact ⟨by simp [cost, callCost], rfl⟩
  | removeConnectionInLoop k =>
    exact ⟨by simp [State.call, State.removeConnectionInLoop, cost, queueCost, callCost,
      Functor.held], ((s.record (.removeConnectionInLoop k)).erase_frame k).2.2.2.2.1⟩
  | notify k => exact ⟨by simp [State.call, cost, callCost], rfl⟩
  | task => exact ⟨by simp [State.call, callCost], rfl⟩

omit [Fintype Λ] [DecidableEq Λ] in
theorem guard_cost (k : ℕ) (revents : EventMask) :
    load (cost (Λ := Λ)) (State.handleEventWithGuard k revents) ≤ 61 := by
  unfold State.handleEventWithGuard
  rw [load_append, load_append]
  have close : load (cost (Λ := Λ))
      (if revents &&& EPOLLHUP ≠ 0 ∧ revents &&& EPOLLIN = 0 then [.handleClose k] else []) ≤
        25 := by
    split_ifs <;> simp [cost]
  have read : load (cost (Λ := Λ))
      (if revents &&& (EPOLLIN ||| EPOLLPRI) ≠ 0 then [.handleRead k] else []) ≤ 26 := by
    split_ifs <;> simp [cost]
  have write : load (cost (Λ := Λ))
      (if revents &&& EPOLLOUT ≠ 0 then [.handleWrite k] else []) ≤ 10 := by
    split_ifs <;> simp [cost]
  omega

theorem remaining_body (now : s.ops l = op :: rest) (inner : op ≠ .doPendingFunctors)
    (pending : r.1.pendingFunctors_ = s.pendingFunctors_) (less : load cost r.2 < cost op) :
    remaining { r.1 with ops := Function.update s.ops l (r.2 ++ rest) } < remaining s := by
  have moved := tally_step cost r.2 now
  have wakes : ∑ m, wakeCost { r.1 with ops := Function.update s.ops l (r.2 ++ rest) } m ≤
      ∑ m, wakeCost s m := by
    refine wakeCosts_le (fun m some_ => pending ▸ some_) fun m _ mem => ?_
    by_cases same : m = l
    · subst same
      rw [now] at mem
      simp only [Function.update_self]
      exact List.mem_append_right _ ((List.mem_cons.mp mem).resolve_left inner.symm)
    · simpa only [Function.update_of_ne same] using mem
  unfold remaining
  simp only [pending] at wakes ⊢
  omega

theorem emplaceBack_cost {loop : Λ} {f : TcpServer.Functor}
    (now : s.ops l = .emplaceBack loop f :: rest) :
    remaining { (s.emplaceBack loop f).1 with ops := Function.update s.ops l ([] ++ rest) } <
      remaining s := by
  have moved := tally_step cost [] now
  have gained := tally_snoc queueCost s.pendingFunctors_ loop f
  have wakes := wakeCosts_step (s := s)
    (t := { (s.emplaceBack loop f).1 with ops := Function.update s.ops l ([] ++ rest) }) loop 0 2
    fun m => by
      have same : m ≠ loop → (s.emplaceBack loop f).1.pendingFunctors_ m = s.pendingFunctors_ m :=
        fun other => Function.update_of_ne other _ _
      have round : .doPendingFunctors ∈ s.ops m →
          .doPendingFunctors ∈ Function.update s.ops l ([] ++ rest) m := fun mem => by
        by_cases here : m = l
        · subst here
          rw [now] at mem
          simpa using mem
        · rwa [Function.update_of_ne here]
      by_cases here : m = loop
      · simp only [wakeCost, here]
        split_ifs <;> omega
      · simp only [wakeCost, same here, if_neg here]
        split_ifs with after before
        · exact Nat.le_refl _
        · exact absurd ⟨after.1, fun mem => after.2 (round mem)⟩ before
        · omega
        · omega
  have zero : load cost ([] : List (Op Λ)) = 0 := rfl
  have own : cost (Op.emplaceBack loop f) = queueCost f + 3 := rfl
  rw [zero, own] at moved
  unfold remaining
  change tally cost (Function.update s.ops l ([] ++ rest)) +
    tally queueCost (Function.update s.pendingFunctors_ loop (s.pendingFunctors_ loop ++ [f])) +
      _ < _
  omega

theorem doPendingFunctors_cost (now : s.ops l = .doPendingFunctors :: rest) :
    remaining { (s.doPendingFunctors l).1 with
      ops := Function.update s.ops l ((s.doPendingFunctors l).2 ++ rest) } < remaining s := by
  have moved := tally_step cost (s.doPendingFunctors l).2 now
  have lost := tally_clear queueCost s.pendingFunctors_ l
  have batch : load cost (s.doPendingFunctors l).2 ≤ load queueCost (s.pendingFunctors_ l) :=
    cost_batch _
  have wakes : ∑ m, wakeCost { (s.doPendingFunctors l).1 with
      ops := Function.update s.ops l ((s.doPendingFunctors l).2 ++ rest) } m ≤
        ∑ m, wakeCost s m := by
    have other : ∀ m, Function.update s.pendingFunctors_ l [] m ≠ [] → m ≠ l := by
      rintro m some_ rfl
      exact some_ (Function.update_self ..)
    refine wakeCosts_le (fun m some_ => ?_) fun m some_ mem => ?_
    · have away := other m some_
      change Function.update s.pendingFunctors_ l [] m ≠ [] at some_
      rwa [Function.update_of_ne away] at some_
    · have away := other m some_
      simpa only [Function.update_of_ne away] using mem
  have own : cost (Op.doPendingFunctors (Λ := Λ)) = 1 := rfl
  rw [own] at moved
  unfold remaining
  change tally cost (Function.update s.ops l ((s.doPendingFunctors l).2 ++ rest)) +
    tally queueCost (Function.update s.pendingFunctors_ l []) + _ < _
  omega

/-- Every operation is worth more than what it calls, when callbacks queue nothing. -/
theorem perform_cost (h : Sound s) (now : s.ops l = op :: rest)
    (hp : s.perform main l input op = some r) (settled : input.accepted = none ∧ input.queued = 0) :
    remaining { r.1 with ops := Function.update s.ops l (r.2 ++ rest) } < remaining s := by
  have ready := h.head now
  cases op with
  | release k =>
    cases hp
    exact remaining_body now (by simp) rfl (by simp [cost])
  | callback k =>
    cases hp
    refine remaining_body now (by simp) (s.callback_spec k input).1.pendingFunctors_ ?_
    unfold State.callback
    split_ifs <;> simp [settled.2, cost]
  | call f =>
    cases hp
    exact remaining_body now (by simp) (call_cost s f).2 (call_cost s f).1
  | runInLoop loop f =>
    cases hp
    refine remaining_body now (by simp) rfl ?_
    change load cost ((if l = loop then .call f else .queueInLoop loop f) :: f.held.map .release) <
      queueCost f + 2 * f.held.length + 5
    rw [load_cons, cost_releases]
    split_ifs
    · simp only [cost, queueCost]
      omega
    · simp only [cost]
      omega
  | queueInLoop loop f =>
    cases hp
    refine remaining_body now (by simp) rfl ?_
    change load cost (.emplaceBack loop f :: f.held.map .release) <
      queueCost f + f.held.length + 4
    rw [load_cons, cost_releases]
    simp only [cost]
    omega
  | emplaceBack loop f =>
    cases hp
    exact emplaceBack_cost now
  | handleEvent k revents =>
    cases hp
    have guarded := guard_cost (Λ := Λ) k revents
    refine remaining_body now (by simp) (s.handleEvent_passive k revents).pendingFunctors_ ?_
    · unfold State.handleEvent
      split_ifs
      · rw [load_append]
        simp only [load_cons, load_nil, cost]
        omega
      · simp [cost]
  | handleRead k =>
    cases hp
    refine remaining_body now (by simp) (s.handleRead_passive k input.read).pendingFunctors_ ?_
    unfold State.handleRead
    split_ifs <;> simp [cost]
  | handleWrite k =>
    cases hp
    refine remaining_body now (by simp) ?_ ?_
    · unfold State.handleWrite
      split_ifs <;> rfl
    · unfold State.handleWrite
      split_ifs <;> simp [cost, queueCost, callCost, Functor.held]
  | handleClose k =>
    cases hp
    exact remaining_body now (by simp) rfl (by simp [State.handleClose, cost])
  | removeConnection k =>
    cases hp
    exact remaining_body now (by simp) rfl
      (by simp [State.removeConnection, cost, queueCost, callCost, Functor.held])
  | remove k =>
    cases hp
    exact remaining_body now (by simp) rfl (by simp [cost])
  | newConnection =>
    simp only [State.perform, settled.1] at hp
    cases hp
    exact remaining_body now (by simp) rfl (by simp [cost])
  | doPendingFunctors =>
    cases hp
    exact doPendingFunctors_cost now
  | destroyItem k => exact ready.elim
  | quit loop => exact ready.elim
  | join loop => exact ready.elim

theorem iterate_cost (idle : s.ops l = []) (some_ : s.pendingFunctors_ l ≠ []) :
    remaining { s with ops := Function.update s.ops l [.doPendingFunctors] } < remaining s := by
  have moved := tally_update cost s.ops l [.doPendingFunctors]
  have wakes := wakeCosts_step (s := s)
    (t := { s with ops := Function.update s.ops l [.doPendingFunctors] }) l 2 0 fun m => by
      by_cases here : m = l
      · subst here
        simp [wakeCost, idle, some_]
      · simp [wakeCost, here]
  have own : load cost [Op.doPendingFunctors (Λ := Λ)] = 1 := rfl
  rw [idle, load_nil, own] at moved
  unfold remaining
  simp only at moved ⊢
  omega

theorem settled_cost {a : Action Λ} (h : Sound s) (settled : Settled s a)
    (hn : next main s a = some t) : remaining t < remaining s := by
  cases a with
  | iterate l active =>
    obtain ⟨⟨idle, -⟩, rfl⟩ := guard_met hn
    obtain rfl : active = [] := List.length_eq_zero_iff.mp settled.1
    exact iterate_cost idle settled.2
  | step l input =>
    obtain ⟨op, rest, r, now, hp, rfl⟩ := next_step hn
    exact perform_cost h now hp ⟨Option.isNone_iff_eq_none.mp settled.1, settled.2⟩
  | post l => exact settled.elim
  | destroy order threads => exact settled.elim

end Costs

section Rest
variable [DecidableEq Λ] {s t : State Λ} {main l : Λ} {op : Op Λ} {input : Input Λ}
  {r : State Λ × List (Op Λ)} {k : ℕ}

def Resting (s : State Λ) : Prop := ∀ l, s.ops l = [] ∧ s.pendingFunctors_ l = []

instance (s : State Λ) : Decidable (Resting s) :=
  inferInstanceAs (Decidable (∀ l, s.ops l = [] ∧ s.pendingFunctors_ l = []))

omit [Fintype Λ] in
theorem perform_quit (hp : s.perform main l input op = some r) (alive : ∀ loop, op ≠ .quit loop) :
    r.1.quit_ = s.quit_ := by
  cases op with
  | callback k =>
    cases hp
    unfold State.callback
    split_ifs <;> rfl
  | call f =>
    cases hp
    cases f with
    | connectDestroyed k =>
      simp only [State.call, State.connectDestroyed]
      split_ifs <;> rfl
    | removeConnectionInLoop k => exact (s.removeConnectionInLoop_passive k).quit_
    | _ => rfl
  | handleEvent k revents =>
    cases hp
    exact (s.handleEvent_passive k revents).quit_
  | handleRead k =>
    cases hp
    exact (s.handleRead_passive k input.read).quit_
  | handleWrite k =>
    cases hp
    unfold State.handleWrite
    split_ifs <;> rfl
  | newConnection =>
    rcases State.newConnection_cases hp with rfl | ⟨sockfd, ioLoop, -, rfl⟩
    · rfl
    · rfl
  | destroyItem k =>
    cases hp
    exact (s.destroyItem_passive k).quit_
  | quit loop => exact absurd rfl (alive loop)
  | join loop =>
    obtain ⟨-, rfl⟩ := guard_met hp
    rfl
  | _ =>
    cases hp
    rfl

structure Living (s : State Λ) : Prop where
  sound : Sound s
  accounted : Accounted s
  distinct : Distinct s
  listed : Listed s
  running : ∀ l, s.quit_ l = false

omit [DecidableEq Λ] in
theorem Entry.moved (h : Entry s k) (conns : t.conns = s.conns)
    (channels_ : t.channels_ = s.channels_)
    (more : ∀ v, expecting s v ≤ expecting t v) : Entry t k := by
  unfold Entry Up Registered Closed at h ⊢
  rw [conns, channels_]
  exact h.imp (fun waits => Nat.lt_of_lt_of_le waits (more _))
    (Or.imp_right fun closed => ⟨closed.1, Nat.lt_of_lt_of_le closed.2 (more _)⟩)

theorem living (h : (server main).Reachable Alive s) : Living s := by
  have known : ∀ s, (server main).Reachable Alive s → Sound s ∧ Accounted s ∧ Distinct s :=
    fun s hs => ⟨server_sound hs, server_accounted hs, server_distinct hs⟩
  have both : Listed s ∧ ∀ l, s.quit_ l = false := by
    refine h.invariant_under (P := fun s => Listed s ∧ ∀ l, s.quit_ l = false) known
      (fun s₀ hi => ?_) fun s a t hs held alive hn => ?_
    · obtain ⟨none_, -, -, -, -, quiet⟩ := hi
      exact ⟨⟨none_ ▸ List.nodup_nil, by simp [none_]⟩, fun l => (quiet l).2.2.1⟩
    · obtain ⟨sound, accounted, distinct⟩ := hs
      cases a with
      | iterate l active =>
        obtain ⟨⟨idle, -⟩, rfl⟩ := guard_met hn
        refine ⟨⟨held.1.nodup, fun k mem => (held.1.entry k mem).moved rfl rfl fun v => ?_⟩, held.2⟩
        have moved := tally_update (bound v) s.ops l (active.map Active.op ++ [.doPendingFunctors])
        rw [idle, load_nil] at moved
        simp only [expecting]
        omega
      | step l input =>
        obtain ⟨op, rest, r, now, hp, rfl⟩ := next_step hn
        have ready := sound.head now
        refine ⟨held.1.perform sound accounted distinct now hp, fun m => ?_⟩
        have same := perform_quit hp fun loop quits => by
          subst quits
          exact ready
        exact same ▸ held.2 m
      | post l =>
        cases hn
        refine ⟨⟨held.1.nodup, fun k mem => (held.1.entry k mem).moved rfl rfl fun v => ?_⟩, held.2⟩
        have gained := tally_snoc v s.pendingFunctors_ l .task
        simp only [expecting]
        omega
      | destroy order threads => exact alive.elim
  have facts := known s h
  exact ⟨facts.1, facts.2.1, facts.2.2, both.1, both.2⟩

/-- A loop that has something to do can do it without new input. -/
theorem Living.goes_on (h : Living s) (busy : ¬Resting s) :
    ∃ a, Settled s a ∧ (next main s a).isSome := by
  obtain ⟨l, work⟩ := not_forall.mp busy
  cases now : s.ops l with
  | nil =>
    have some_ : s.pendingFunctors_ l ≠ [] := fun none_ => work ⟨now, none_⟩
    exact ⟨.iterate l [], ⟨rfl, some_⟩, by simp [next, now, h.running l]⟩
  | cons op rest =>
    refine ⟨.step l ⟨none, 0, false, false, false, 0, false⟩, ⟨rfl, rfl⟩, ?_⟩
    have ready := h.sound.head now
    simp only [next, now, Option.isSome_map]
    cases op with
    | join loop => exact ready.elim
    | _ => rfl

omit [DecidableEq Λ] in
/-- At rest a connection is up, with its entry as its only owner, or it is gone. -/
theorem Living.at_rest (h : Living s) (rest : Resting s) (k : ℕ) :
    (k ∈ s.connections_ ∧ Up s k ∧ s.refs k = 1) ∨
      (k ∉ s.connections_ ∧ ¬Registered s k ∧ s.refs k = 0) := by
  have ops : ∀ w : Op Λ → ℕ, tally w s.ops = 0 := fun w => tally_of_nil fun l => (rest l).1
  have queues : ∀ v : TcpServer.Functor → ℕ, tally v s.pendingFunctors_ = 0 := fun v =>
    tally_of_nil fun l => (rest l).2
  have counted := h.accounted.balance k
  rw [owners, ops, queues] at counted
  by_cases mem : k ∈ s.connections_
  · refine .inl ⟨mem, ?_, ?_⟩
    · rcases h.listed.entry k mem with waits | up | ⟨-, leaves⟩
      · rw [expecting, ops, queues] at waits
        exact absurd waits (Nat.lt_irrefl 0)
      · exact up
      · rw [expecting, ops, queues] at leaves
        exact absurd leaves (Nat.lt_irrefl 0)
    · rw [counted, List.count_eq_one_of_mem h.listed.nodup mem]
  · refine .inr ⟨mem, fun reg => ?_, ?_⟩
    · rcases h.sound.owned k reg with there | leaves
      · exact mem there
      · rw [leaving, ops, queues] at leaves
        exact absurd leaves (Nat.lt_irrefl 0)
    · rw [counted, List.count_eq_zero_of_not_mem mem]

theorem Living.closed (h : Living s) {a : Action Λ} (alive : Alive s a)
    (hn : next main s a = some t) (closed : Closed s k) : Closed t k := by
  cases a with
  | iterate l active =>
    obtain ⟨-, rfl⟩ := guard_met hn
    exact closed
  | step l input =>
    obtain ⟨op, rest, r, now, hp, rfl⟩ := next_step hn
    exact (perform_advances h.sound h.accounted h.distinct now hp k).1 closed
  | post l =>
    cases hn
    exact closed
  | destroy order threads => exact alive.elim

omit [DecidableEq Λ] [Fintype Λ] in
theorem Settled.alive {a : Action Λ} (settled : Settled s a) : Alive s a := by
  cases a with
  | destroy order threads => exact settled.elim
  | _ => trivial

def Settles (main : Λ) (t s : State Λ) : Prop := ∃ a, Settled s a ∧ next main s a = some t

theorem Resting.ends (h : Resting s) (u : State Λ) : ¬Settles main u s := by
  rintro ⟨a, settled, hn⟩
  cases a with
  | iterate l active => exact settled.2 (h l).2
  | step l input => simp [next, (h l).1] at hn
  | post l => exact settled.elim
  | destroy order threads => exact settled.elim

/-- Whatever a round's other handlers did, the handler of a reported channel finds its
connection: `tie_.lock()` does not fail. -/
theorem events_handled {revents : EventMask} {rest : List (Op Λ)}
    (h : (server main).Reachable Alive s) (now : s.ops l = .handleEvent k revents :: rest) :
    ∃ t, next main s (.step l input) = some t ∧ t.refs k = s.refs k + 1 ∧ Registered s k ∧
      t.ops l = State.handleEventWithGuard k revents ++ .release k :: rest := by
  obtain ⟨reg, live⟩ := dispatch_live h now
  have performed : s.perform main l input (.handleEvent k revents) = some (s.retain [k],
      State.handleEventWithGuard k revents ++ [.release k]) := by
    rw [State.perform, State.handleEvent, if_pos live]
  have stepped : next main s (.step l input) = some { s.retain [k] with
      ops := Function.update s.ops l
        (State.handleEventWithGuard k revents ++ [.release k] ++ rest) } := by
    simp only [next, now, performed, Option.map_some]
  refine ⟨_, stepped, ?_, reg, ?_⟩
  · simp [State.retain]
  · simp

end Rest

theorem events_handled_hangup : ∃ s t : State Bool, (server true).Reachable Alive s ∧
    next true s (.step false idle) = some t ∧ t.refs 1 = s.refs 1 + 1 := by
  have run : ((server true).execute Alive sample
      (accepting ++ [.iterate false [.conn 1 EPOLLHUP]])).map (fun s => s.ops false) =
      some [.handleEvent 1 EPOLLHUP, .doPendingFunctors] := by decide +kernel
  obtain ⟨s, reached, now⟩ := System.Reachable.of_replay sample_initial run
  obtain ⟨t, hn, more, -⟩ := events_handled reached now
  exact ⟨s, t, reached, hn, more⟩

end TinyNetwork.ConnectionRelease

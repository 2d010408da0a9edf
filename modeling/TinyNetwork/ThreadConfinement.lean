import TinyNetwork.TcpServer

/-! One loop per thread: what a thread still has to do with a connection it does for connections
of its own loop, whoever queued it, and the server's table is the main thread's alone. So a step
of one thread changes nothing that another thread works on, besides the use counts and the
queues, which are made for that. This holds in every run, the server's destruction included. -/
namespace TinyNetwork.ThreadConfinement
open Transition PendingWork TcpServer

variable {Λ : Type*}

def Home (s : State Λ) (l : Λ) (k : ℕ) : Prop := k < s.nextConnId_ ∧ (s.conns k).ioLoop = l

def Runs (main : Λ) (s : State Λ) (l : Λ) : TcpServer.Functor → Prop
  | .connectEstablished k => Home s l k
  | .connectDestroyed k => Home s l k
  | .removeConnectionInLoop k => l = main ∧ k < s.nextConnId_
  | .notify k => Home s l k
  | .task => True

/-- An operation that the thread of `l` may have to do. -/
def Confined (main : Λ) (s : State Λ) (l : Λ) : Op Λ → Prop
  | .release _ => True
  | .callback k => Home s l k
  | .call f => Runs main s l f
  | .runInLoop loop f => Runs main s loop f
  | .queueInLoop loop f => Runs main s loop f
  | .emplaceBack loop f => Runs main s loop f
  | .handleEvent k _ => Home s l k
  | .handleRead k => Home s l k
  | .handleWrite k => Home s l k
  | .handleClose k => Home s l k
  | .removeConnection k => Home s l k
  | .remove k => Home s l k
  | .newConnection => l = main
  | .doPendingFunctors => True
  | .destroyItem _ => l = main
  | .quit _ => l = main
  | .join _ => l = main

def Grown (s t : State Λ) : Prop :=
  s.nextConnId_ ≤ t.nextConnId_ ∧ ∀ k < s.nextConnId_, (t.conns k).ioLoop = (s.conns k).ioLoop

section Growth
variable {s t : State Λ} {main l : Λ} {k : ℕ} {op : Op Λ}

theorem Home.grown (h : Home s l k) (grown : Grown s t) : Home t l k :=
  ⟨Nat.lt_of_lt_of_le h.1 grown.1, (grown.2 k h.1).trans h.2⟩

theorem Runs.grown {f : TcpServer.Functor} (h : Runs main s l f) (grown : Grown s t) :
    Runs main t l f := by
  cases f with
  | removeConnectionInLoop k => exact ⟨h.1, Nat.lt_of_lt_of_le h.2 grown.1⟩
  | task => trivial
  | _ => exact Home.grown h grown

theorem Confined.grown (h : Confined main s l op) (grown : Grown s t) : Confined main t l op := by
  cases op with
  | release k => trivial
  | doPendingFunctors => trivial
  | newConnection => exact h
  | destroyItem k => exact h
  | quit loop => exact h
  | join loop => exact h
  | call f => exact Runs.grown h grown
  | runInLoop loop f => exact Runs.grown h grown
  | queueInLoop loop f => exact Runs.grown h grown
  | emplaceBack loop f => exact Runs.grown h grown
  | _ => exact Home.grown h grown

theorem grown_of_same (ids : t.nextConnId_ = s.nextConnId_)
    (loops : ∀ k, (t.conns k).ioLoop = (s.conns k).ioLoop) : Grown s t :=
  ⟨Nat.le_of_eq ids.symm, fun k _ => loops k⟩

end Growth

variable [DecidableEq Λ]

structure Apart (main l : Λ) (s t : State Λ) : Prop where
  channels_ : ∀ m ≠ l, t.channels_ m = s.channels_ m
  conns : ∀ k < s.nextConnId_, (s.conns k).ioLoop ≠ l → t.conns k = s.conns k
  table : l ≠ main → t.connections_ = s.connections_ ∧ t.nextConnId_ = s.nextConnId_

structure Keeps (main l : Λ) (s : State Λ) (r : State Λ × List (Op Λ)) : Prop where
  grown : Grown s r.1
  called : ∀ a ∈ r.2, Confined main r.1 l a
  pending : ∀ m, ∀ f ∈ r.1.pendingFunctors_ m, f ∈ s.pendingFunctors_ m ∨ Runs main r.1 m f
  listed : ∀ k ∈ r.1.connections_, k ∈ s.connections_ ∨ k < r.1.nextConnId_
  mapped : ∀ m fd k, r.1.channels_ m fd = some k →
    s.channels_ m fd = some k ∨ k < r.1.nextConnId_
  apart : Apart main l s r.1

section Operations
variable {s t : State Λ} {main l : Λ} {k : ℕ} {called : List (Op Λ)} {input : Input Λ}

omit [DecidableEq Λ] in
theorem keeps_same (conns : t.conns = s.conns) (channels_ : t.channels_ = s.channels_)
    (table : t.connections_ = s.connections_) (ids : t.nextConnId_ = s.nextConnId_)
    (pending : t.pendingFunctors_ = s.pendingFunctors_)
    (stays : ∀ a ∈ called, Confined main t l a) : Keeps main l s (t, called) where
  grown := grown_of_same ids fun k => by rw [conns]
  called := stays
  pending m f hf := .inl (by rwa [← pending])
  listed k hk := .inl (by rwa [← table])
  mapped m fd k hk := .inl (by rwa [← channels_])
  apart := ⟨fun _ _ => by rw [channels_], fun _ _ _ => by rw [conns], fun _ => ⟨table, ids⟩⟩

theorem keeps_conn {entry : Option ℕ} (home : Home s l k)
    (own : entry = none ∨ entry = some k)
    (state : ∀ j, j ≠ k → t.conns j = s.conns j) (loop : (t.conns k).ioLoop = (s.conns k).ioLoop)
    (channels_ : t.channels_ = s.channels_ ∨ t.channels_ = (s.setChannel k entry).channels_)
    (table : t.connections_ = s.connections_) (ids : t.nextConnId_ = s.nextConnId_)
    (pending : t.pendingFunctors_ = s.pendingFunctors_)
    (stays : ∀ a ∈ called, Confined main t l a) : Keeps main l s (t, called) where
  grown := grown_of_same ids fun j => by
    by_cases same : j = k
    · rw [same, loop]
    · rw [state j same]
  called := stays
  pending m f hf := .inl (by rwa [← pending])
  listed j hj := .inl (by rwa [← table])
  mapped m fd j hj := by
    rcases channels_ with same | set
    · exact .inl (by rwa [← same])
    · simp only [set, State.setChannel_apply] at hj
      split_ifs at hj with here
      · rcases own with none | some_
        · rw [none] at hj
          cases hj
        · rw [some_] at hj
          exact .inr (Option.some.inj hj ▸ ids ▸ home.1)
      · exact .inl hj
  apart := by
    refine ⟨fun m other => ?_, fun j _ away => ?_, fun _ => ⟨table, ids⟩⟩
    · rcases channels_ with same | set
      · exact congrFun same m
      · funext fd
        rw [set, State.setChannel_apply, if_neg fun here => other (here.1.trans home.2)]
    · exact state j fun same => away (same ▸ home.2)

omit [DecidableEq Λ] in
theorem releases_confined (held : List ℕ) :
    ∀ a ∈ held.map (Op.release (Λ := Λ)), Confined main s l a := by
  intro a ha
  obtain ⟨k, -, rfl⟩ := List.mem_map.mp ha
  trivial

omit [DecidableEq Λ] in
theorem cons_confined {a : Op Λ} {rest : List (Op Λ)} (first : Confined main s l a)
    (others : ∀ b ∈ rest, Confined main s l b) : ∀ b ∈ a :: rest, Confined main s l b :=
  List.forall_mem_cons.mpr ⟨first, others⟩

theorem setChannel_setState (s : State Λ) (k : ℕ) (state : StateE) (entry : Option ℕ) :
    ((s.setState k state).setChannel k entry).channels_ = (s.setChannel k entry).channels_ := by
  simp only [State.setChannel, State.setState_ioLoop, State.setState_sockfd]
  rfl

omit [DecidableEq Λ] in
theorem setState_apart {state : StateE} {j : ℕ} (other : j ≠ k) :
    (s.setState k state).conns j = s.conns j := Function.update_of_ne other _ _

theorem keeps_callback (home : Home s l k) : Keeps main l s (s.callback k input) := by
  by_cases connected : (s.conns k).state_ = .kConnected
  · have stays {t : State Λ} (loop : (t.conns k).ioLoop = (s.conns k).ioLoop)
        (ids : t.nextConnId_ = s.nextConnId_) : ∀ a ∈ List.replicate input.queued
          (Op.queueInLoop (s.conns k).ioLoop (.notify k)), Confined main t l a := by
      intro a ha
      rw [List.eq_of_mem_replicate ha]
      exact ⟨ids ▸ home.1, loop⟩
    unfold State.callback
    rw [if_pos connected]
    by_cases writing : input.writing = true
    · rw [if_pos writing]
      exact keeps_conn home (.inr rfl) (fun j other => setState_apart other)
        ((s.updateChannel k).setState_ioLoop k k _) (.inr rfl) rfl rfl rfl
        (stays ((s.updateChannel k).setState_ioLoop k k _) rfl)
    · rw [if_neg writing]
      exact keeps_conn home (.inr rfl) (fun j other => setState_apart other)
        (s.setState_ioLoop k k _) (.inl rfl) rfl rfl rfl (stays (s.setState_ioLoop k k _) rfl)
  · rw [State.callback, if_neg connected]
    exact keeps_same rfl rfl rfl rfl rfl (by simp)

theorem keeps_update {state : StateE} {refs : ℕ → ℕ} (home : Home s l k)
    (stays : ∀ a ∈ called, Confined main
      { (s.setState k state).updateChannel k with refs := refs } l a) :
    Keeps main l s ({ (s.setState k state).updateChannel k with refs := refs }, called) :=
  keeps_conn home (.inr rfl) (fun _ other => setState_apart other) (s.setState_ioLoop k k _)
    (.inr (setChannel_setState s k state (some k))) rfl rfl rfl stays

omit [DecidableEq Λ] in
theorem erase_subset (s : State Λ) (k : ℕ) : (s.erase k).connections_ ⊆ s.connections_ := by
  unfold State.erase
  split_ifs
  · exact List.erase_subset
  · exact List.Subset.refl _

theorem keeps_call {f : TcpServer.Functor} (runs : Runs main s l f) :
    Keeps main l s (s.call f) := by
  cases f with
  | connectEstablished k =>
    have home : Home ((s.setState k .kConnected).updateChannel k) l k :=
      ⟨runs.1, (s.setState_ioLoop k k _).trans runs.2⟩
    exact keeps_update runs (cons_confined home (cons_confined trivial (by simp)))
  | connectDestroyed k =>
    simp only [State.call, State.connectDestroyed]
    split_ifs with connected
    · have home : Home ((s.setState k .kDisconnected).updateChannel k) l k :=
        ⟨runs.1, (s.setState_ioLoop k k _).trans runs.2⟩
      exact keeps_update runs
        (cons_confined home (cons_confined trivial (cons_confined home (by simp))))
    · exact keeps_same rfl rfl rfl rfl rfl (cons_confined runs (by simp))
  | removeConnectionInLoop k =>
    obtain ⟨rfl, born⟩ := runs
    obtain ⟨conns, channels_, -, ids, pending, -⟩ :=
      (s.record (.removeConnectionInLoop k)).erase_frame k
    change Keeps l l s ((s.record (.removeConnectionInLoop k)).erase k, _)
    have grown : Grown s ((s.record (.removeConnectionInLoop k)).erase k) :=
      grown_of_same ids fun j => by rw [conns]; rfl
    exact {
      grown := grown
      called := cons_confined ⟨Nat.lt_of_lt_of_le born grown.1, grown.2 k born⟩ (by simp)
      pending := fun m f hf => .inl (pending ▸ hf)
      listed := fun j hj => .inl (erase_subset (s.record _) k hj)
      mapped := fun m fd j hj => .inl (channels_ ▸ hj)
      apart := ⟨fun m _ => congrFun channels_ m, fun j _ _ => congrFun conns j,
        fun other => absurd rfl other⟩ }
  | notify k => exact keeps_same rfl rfl rfl rfl rfl (cons_confined runs (by simp))
  | task => exact keeps_same rfl rfl rfl rfl rfl (by simp)

omit [DecidableEq Λ] in
theorem keeps_newConnection {accepted : Option (ℕ × Λ)} {r : State Λ × List (Op Λ)}
    (hp : s.newConnection accepted = some r) : Keeps l l s r := by
  cases accepted with
  | none =>
    cases hp
    exact keeps_same rfl rfl rfl rfl rfl (by simp)
  | some pair =>
    obtain ⟨sockfd, ioLoop⟩ := pair
    obtain ⟨-, rfl⟩ := guard_met hp
    have old : ∀ j < s.nextConnId_,
        Function.update s.conns s.nextConnId_ ⟨ioLoop, sockfd, .kConnecting⟩ j = s.conns j :=
      fun j hj => Function.update_of_ne (Nat.ne_of_lt hj) _ _
    have new : Function.update s.conns s.nextConnId_ ⟨ioLoop, sockfd, .kConnecting⟩
        s.nextConnId_ = ⟨ioLoop, sockfd, .kConnecting⟩ := Function.update_self ..
    exact {
      grown := ⟨Nat.le_succ _, fun j hj => congrArg Conn.ioLoop (old j hj)⟩
      called := cons_confined ⟨Nat.lt_succ_self _, congrArg Conn.ioLoop new⟩
        (cons_confined trivial (by simp))
      pending := fun m f hf => .inl hf
      listed := fun j hj => (List.mem_cons.mp hj).symm.imp_right
        fun same => Nat.lt_succ_of_le (Nat.le_of_eq same)
      mapped := fun m fd j hj => .inl hj
      apart := ⟨fun m _ => rfl, fun j hj _ => old j hj, fun other => absurd rfl other⟩ }

/-- Whatever the thread of `l` does keeps everything where it belongs. -/
theorem perform_keeps {op : Op Λ} {r : State Λ × List (Op Λ)} (confined : Confined main s l op)
    (queued : ∀ f ∈ s.pendingFunctors_ l, Runs main s l f)
    (listed : ∀ k ∈ s.connections_, k < s.nextConnId_)
    (hp : s.perform main l input op = some r) : Keeps main l s r := by
  cases op with
  | release k =>
    cases hp
    exact keeps_same rfl rfl rfl rfl rfl (by simp)
  | callback k =>
    cases hp
    exact keeps_callback confined
  | call f =>
    cases hp
    exact keeps_call confined
  | runInLoop loop f =>
    cases hp
    refine keeps_same rfl rfl rfl rfl rfl (cons_confined ?_ (releases_confined f.held))
    split_ifs with own
    · exact own ▸ confined
    · exact confined
  | queueInLoop loop f =>
    cases hp
    exact keeps_same rfl rfl rfl rfl rfl (cons_confined confined (releases_confined f.held))
  | emplaceBack loop f =>
    cases hp
    have grown : Grown s (s.emplaceBack loop f).1 := grown_of_same rfl fun _ => rfl
    refine ⟨grown, List.forall_mem_nil _, fun m g hg => ?_, fun j hj => .inl hj,
      fun m fd j hj => .inl hj, ⟨fun _ _ => rfl, fun _ _ _ => rfl, fun _ => ⟨rfl, rfl⟩⟩⟩
    change g ∈ Function.update s.pendingFunctors_ loop (s.pendingFunctors_ loop ++ [f]) m at hg
    by_cases same : m = loop
    · subst same
      rw [Function.update_self] at hg
      rcases List.mem_append.mp hg with old | new
      · exact .inl old
      · have runs : Runs main s m f := confined
        exact .inr (List.mem_singleton.mp new ▸ runs.grown grown)
    · rw [Function.update_of_ne same] at hg
      exact .inl hg
  | handleEvent k revents =>
    cases hp
    unfold State.handleEvent
    split_ifs with alive
    · refine keeps_same rfl rfl rfl rfl rfl fun a ha => ?_
      rcases List.mem_append.mp ha with body | last
      · rcases State.handleEventWithGuard_spec k revents a body with rfl | rfl | rfl <;>
          exact confined
      · rw [List.mem_singleton.mp last]
        trivial
    · exact keeps_same rfl rfl rfl rfl rfl (by simp)
  | handleRead k =>
    cases hp
    unfold State.handleRead
    split_ifs with more last
    · exact keeps_same rfl rfl rfl rfl rfl
        (cons_confined confined (cons_confined trivial (by simp)))
    · exact keeps_same rfl rfl rfl rfl rfl (cons_confined confined (by simp))
    · exact keeps_same rfl rfl rfl rfl rfl (by simp)
  | handleWrite k =>
    cases hp
    unfold State.handleWrite
    split_ifs with drained notifies
    · exact keeps_conn confined (.inr rfl) (fun _ _ => rfl) rfl (.inr rfl) rfl rfl rfl
        (cons_confined ⟨confined.1, rfl⟩ (by simp))
    · exact keeps_conn confined (.inr rfl) (fun _ _ => rfl) rfl (.inr rfl) rfl rfl rfl (by simp)
    · exact keeps_same rfl rfl rfl rfl rfl (by simp)
  | handleClose k =>
    cases hp
    have home : Home ((s.setState k .kDisconnected).updateChannel k) l k :=
      ⟨confined.1, (s.setState_ioLoop k k _).trans confined.2⟩
    exact keeps_update confined
      (cons_confined home (cons_confined home (cons_confined trivial (by simp))))
  | removeConnection k =>
    cases hp
    exact keeps_same rfl rfl rfl rfl rfl (cons_confined ⟨rfl, confined.1⟩ (by simp))
  | remove k =>
    cases hp
    exact keeps_conn confined (.inl rfl) (fun _ _ => rfl) rfl (.inr rfl) rfl rfl rfl (by simp)
  | newConnection =>
    obtain rfl : l = main := confined
    exact keeps_newConnection hp
  | doPendingFunctors =>
    cases hp
    refine ⟨grown_of_same rfl fun _ => rfl, fun a ha => ?_, fun m f hf => .inl ?_,
      fun j hj => .inl hj, fun m fd j hj => .inl hj,
      ⟨fun _ _ => rfl, fun _ _ _ => rfl, fun _ => ⟨rfl, rfl⟩⟩⟩
    · rcases List.mem_append.mp ha with call | released
      · obtain ⟨f, hf, rfl⟩ := List.mem_map.mp call
        exact queued f hf
      · exact releases_confined _ a released
    · by_cases same : m = l
      · subst same
        simp [State.doPendingFunctors] at hf
      · simpa [State.doPendingFunctors, Function.update_of_ne same] using hf
  | destroyItem k =>
    cases hp
    obtain rfl : l = main := confined
    unfold State.destroyItem
    split_ifs with mem
    · exact ⟨grown_of_same rfl fun _ => rfl,
        cons_confined ⟨listed k mem, rfl⟩ (cons_confined trivial (by simp)), fun m f hf => .inl hf,
        fun j hj => .inl (List.mem_of_mem_erase hj), fun m fd j hj => .inl hj,
        ⟨fun _ _ => rfl, fun _ _ _ => rfl, fun other => absurd rfl other⟩⟩
    · exact keeps_same rfl rfl rfl rfl rfl (by simp)
  | quit loop =>
    cases hp
    exact keeps_same rfl rfl rfl rfl rfl (by simp)
  | join loop =>
    obtain ⟨-, rfl⟩ := guard_met hp
    refine ⟨grown_of_same rfl fun _ => rfl, releases_confined _, fun m f hf => .inl ?_,
      fun j hj => .inl hj, fun m fd j hj => .inl hj,
      ⟨fun _ _ => rfl, fun _ _ _ => rfl, fun _ => ⟨rfl, rfl⟩⟩⟩
    by_cases same : m = loop
    · subst same
      simp at hf
    · simpa [Function.update_of_ne same] using hf

end Operations

section Runs
variable [Fintype Λ] {s t : State Λ} {main l : Λ}

structure InPlace (main : Λ) (s : State Λ) : Prop where
  ops : ∀ l, ∀ op ∈ s.ops l, Confined main s l op
  queued : ∀ l, ∀ f ∈ s.pendingFunctors_ l, Runs main s l f
  listed : ∀ k ∈ s.connections_, k < s.nextConnId_
  mapped : ∀ l fd k, s.channels_ l fd = some k → k < s.nextConnId_

theorem InPlace.next {a : Action Λ} (h : InPlace main s) (hn : next main s a = some t) :
    InPlace main t := by
  cases a with
  | iterate l active =>
    obtain ⟨⟨-, -, reported⟩, rfl⟩ := guard_met hn
    refine ⟨forall_update (P := fun m ops => ∀ op ∈ ops, Confined main s m op) h.ops
      (round_spec (P := Confined main s l) (fun a ha => ?_) trivial), h.queued, h.listed, h.mapped⟩
    have report := reported a ha
    cases a with
    | acceptor => exact report.1
    | conn k revents => exact ⟨h.mapped l _ k report.2, report.1⟩
  | step l input =>
    obtain ⟨op, rest, r, now, hp, rfl⟩ := next_step hn
    have keeps := perform_keeps (h.ops l op (now ▸ List.mem_cons_self)) (h.queued l) h.listed hp
    refine ⟨fun m a ha => ?_, fun m f hf => ?_, fun k hk => ?_, fun m fd k hk => ?_⟩
    · by_cases same : m = l
      · subst same
        simp only [Function.update_self] at ha
        rcases List.mem_append.mp ha with new | old
        · exact keeps.called a new
        · exact (h.ops m a (now ▸ List.mem_cons_of_mem op old)).grown keeps.grown
      · simp only [Function.update_of_ne same] at ha
        exact (h.ops m a ha).grown keeps.grown
    · rcases keeps.pending m f hf with old | new
      · exact (h.queued m f old).grown keeps.grown
      · exact new
    · rcases keeps.listed k hk with old | new
      · exact Nat.lt_of_lt_of_le (h.listed k old) keeps.grown.1
      · exact new
    · rcases keeps.mapped m fd k hk with old | new
      · exact Nat.lt_of_lt_of_le (h.mapped m fd k old) keeps.grown.1
      · exact new
  | post l =>
    cases hn
    refine ⟨h.ops, forall_update (P := fun m queue => ∀ f ∈ queue, Runs main s m f) h.queued
      fun f hf => ?_, h.listed, h.mapped⟩
    rcases List.mem_append.mp hf with old | new
    · exact h.queued l f old
    · rw [List.mem_singleton.mp new]
      trivial
  | destroy order threads =>
    obtain ⟨-, rfl⟩ := guard_met hn
    refine ⟨forall_update (P := fun m ops => ∀ op ∈ ops, Confined main s m op) h.ops
      fun a ha => ?_, h.queued, h.listed, h.mapped⟩
    rcases List.mem_append.mp ha with new | old
    · exact teardown_spec (P := Confined main s main) order threads (fun _ => rfl)
        (fun _ => ⟨rfl, rfl⟩) a new
    · exact h.ops main a old

theorem InPlace.initial (h : (server main).init s) : InPlace main s := by
  obtain ⟨none_, -, -, -, -, quiet⟩ := h
  refine ⟨fun l op hop => ?_, fun l f hf => ?_, by simp [none_], fun l fd k hk => ?_⟩
  · simp [(quiet l).1] at hop
  · simp [(quiet l).2.1] at hf
  · simp [(quiet l).2.2.2 fd] at hk

theorem inPlace (h : (server main).Reachable Any s) : InPlace main s :=
  h.invariant (fun _ => InPlace.initial) fun _ _ _ held _ hn => held.next hn

theorem InPlace.grown {a : Action Λ} (h : InPlace main s) (hn : TcpServer.next main s a = some t) :
    Grown s t := by
  cases a with
  | iterate m active =>
    obtain ⟨-, rfl⟩ := guard_met hn
    exact grown_of_same rfl fun _ => rfl
  | step m input =>
    obtain ⟨op, rest, r, now, hp, rfl⟩ := next_step hn
    exact (perform_keeps (h.ops m op (now ▸ List.mem_cons_self)) (h.queued m) h.listed hp).grown
  | post m =>
    cases hn
    exact grown_of_same rfl fun _ => rfl
  | destroy order threads =>
    obtain ⟨-, rfl⟩ := guard_met hn
    exact grown_of_same rfl fun _ => rfl

def Elsewhere (l : Λ) (_ : State Λ) : Action Λ → Prop
  | .step m _ => m ≠ l
  | _ => True

instance (l : Λ) (s : State Λ) : (a : Action Λ) → Decidable (Elsewhere l s a)
  | .step m _ => inferInstanceAs (Decidable (m ≠ l))
  | .iterate _ _ => inferInstanceAs (Decidable True)
  | .post _ => inferInstanceAs (Decidable True)
  | .destroy _ _ => inferInstanceAs (Decidable True)

structure Unmoved (main l : Λ) (s t : State Λ) : Prop where
  grown : Grown s t
  channels_ : t.channels_ l = s.channels_ l
  conns : ∀ k < s.nextConnId_, (s.conns k).ioLoop = l → t.conns k = s.conns k
  table : l = main → t.connections_ = s.connections_ ∧ t.nextConnId_ = s.nextConnId_

omit [DecidableEq Λ] [Fintype Λ] in
theorem Unmoved.trans {u : State Λ} (first : Unmoved main l s t) (second : Unmoved main l t u) :
    Unmoved main l s u where
  grown := ⟨first.grown.1.trans second.grown.1, fun k hk =>
    (second.grown.2 k (Nat.lt_of_lt_of_le hk first.grown.1)).trans (first.grown.2 k hk)⟩
  channels_ := second.channels_.trans first.channels_
  conns k hk own := (second.conns k (Nat.lt_of_lt_of_le hk first.grown.1)
    ((first.grown.2 k hk).trans own)).trans (first.conns k hk own)
  table here :=
    ⟨(second.table here).1.trans (first.table here).1,
      (second.table here).2.trans (first.table here).2⟩

omit [DecidableEq Λ] [Fintype Λ] in
theorem unmoved_of_same (conns : t.conns = s.conns) (channels_ : t.channels_ = s.channels_)
    (table : t.connections_ = s.connections_) (ids : t.nextConnId_ = s.nextConnId_) :
    Unmoved main l s t :=
  ⟨grown_of_same ids fun k => by rw [conns], congrFun channels_ l, fun k _ _ => congrFun conns k,
    fun _ => ⟨table, ids⟩⟩

theorem InPlace.unmoved {a : Action Λ} (h : InPlace main s) (other : Elsewhere l s a)
    (hn : TcpServer.next main s a = some t) : Unmoved main l s t := by
  cases a with
  | iterate m active =>
    obtain ⟨-, rfl⟩ := guard_met hn
    exact unmoved_of_same rfl rfl rfl rfl
  | step m input =>
    have away : m ≠ l := other
    obtain ⟨op, rest, r, now, hp, rfl⟩ := next_step hn
    have keeps := perform_keeps (h.ops m op (now ▸ List.mem_cons_self)) (h.queued m) h.listed hp
    exact ⟨keeps.grown, keeps.apart.channels_ l away.symm,
      fun k hk own => keeps.apart.conns k hk fun same => away (same.symm.trans own),
      fun here => keeps.apart.table fun same => away (same.trans here.symm)⟩
  | post m =>
    cases hn
    exact unmoved_of_same rfl rfl rfl rfl
  | destroy order threads =>
    obtain ⟨-, rfl⟩ := guard_met hn
    exact unmoved_of_same rfl rfl rfl rfl

end Runs

end TinyNetwork.ThreadConfinement

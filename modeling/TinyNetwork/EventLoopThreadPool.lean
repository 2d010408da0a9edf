import TinyNetwork.RoundRobin
import TinyNetwork.ThreadConfinement

/-! The thread pool of `net/EventLoopThreadPool.cc` in the server of `net/TcpServer.cc`: `start`
fills it once with the sub loops, and `newConnection` takes its loop from `getNextLoop`. The
server's other steps are those of `TcpServer`; what they do to the loops of the connections is
read off their confinement. -/
namespace TinyNetwork
open Transition RoundRobin

structure EventLoopThreadPool (Λ : Type*) where
  baseLoop_ : Λ
  started_ : Bool
  numThreads_ : ℤ
  next_ : ℕ
  loops_ : List Λ
  deriving DecidableEq

namespace EventLoopThreadPool

variable {Λ : Type*}

def construct (baseLoop : Λ) : EventLoopThreadPool Λ := ⟨baseLoop, false, 0, 0, []⟩

def setThreadNum (p : EventLoopThreadPool Λ) (numThreads : ℤ) : EventLoopThreadPool Λ :=
  { p with numThreads_ := numThreads }

def start (p : EventLoopThreadPool Λ) (startLoop : ℕ → Λ) : EventLoopThreadPool Λ :=
  { p with
    started_ := true
    loops_ := p.loops_ ++ (List.range p.numThreads_.toNat).map startLoop }

/-- A read of `loops_` past its end is undefined. -/
def getNextLoop (p : EventLoopThreadPool Λ) : Option (Λ × EventLoopThreadPool Λ) :=
  if p.loops_ = [] then some (p.baseLoop_, p)
  else p.loops_[p.next_]?.map fun loop =>
    (loop, { p with next_ := if p.next_ + 1 ≥ p.loops_.length then 0 else p.next_ + 1 })

def getAllLoops (p : EventLoopThreadPool Λ) : List Λ :=
  if p.loops_ = [] then [p.baseLoop_] else p.loops_

def Turned (p : EventLoopThreadPool Λ) (k : ℕ) : Prop := p.next_ = k % p.getAllLoops.length

section Turns
variable {p q : EventLoopThreadPool Λ} {k : ℕ} {loop : Λ}

/-- `getNextLoop` gives the loop whose turn it is, and never reads past the end. -/
theorem Turned.getNextLoop (h : p.Turned k) : ∃ loop q, p.getNextLoop = some (loop, q) ∧
    turn p.getAllLoops k = some loop ∧ q.Turned (k + 1) ∧ q.loops_ = p.loops_ ∧
      q.baseLoop_ = p.baseLoop_ := by
  unfold Turned at h
  by_cases empty : p.loops_ = []
  · have single : p.getAllLoops = [p.baseLoop_] := if_pos empty
    rw [single, List.length_singleton, Nat.mod_one] at h
    refine ⟨p.baseLoop_, p, if_pos empty, ?_, ?_, rfl, rfl⟩
    · rw [single, turn, List.length_singleton, Nat.mod_one]
      rfl
    · rw [Turned, h, single, List.length_singleton, Nat.mod_one]
  · have all : p.getAllLoops = p.loops_ := if_neg empty
    rw [all] at h ⊢
    have positive : 0 < p.loops_.length := List.length_pos_iff.mpr empty
    have inside : p.next_ < p.loops_.length := h ▸ Nat.mod_lt k positive
    have at_ : p.loops_[p.next_]? = some p.loops_[p.next_] := List.getElem?_eq_getElem inside
    have moved : (if p.next_ + 1 ≥ p.loops_.length then 0 else p.next_ + 1) =
        (k + 1) % p.loops_.length := by
      rw [h]
      exact advance_mod positive k
    have picked : p.getNextLoop =
        some (p.loops_[p.next_], { p with next_ := (k + 1) % p.loops_.length }) := by
      rw [EventLoopThreadPool.getNextLoop, if_neg empty, at_, moved]
      rfl
    refine ⟨_, _, picked, ?_, ?_, rfl, rfl⟩
    · rw [turn, ← h, at_]
    · rw [Turned, getAllLoops, if_neg empty]

end Turns

end EventLoopThreadPool

structure PooledServer (Λ : Type*) where
  server : TcpServer.State Λ
  threadPool_ : EventLoopThreadPool Λ
  started_ : ℕ

namespace PooledServer
open TcpServer ThreadConfinement PendingWork

variable {Λ : Type*} [DecidableEq Λ] [Fintype Λ] {main : Λ} {s t : PooledServer Λ}

/-- `run` is a step of the server, whose `newConnection` asks the pool and not its input for the
loop. -/
inductive Action (Λ : Type*) where
  | setThreadNum (numThreads : ℤ)
  | start (startLoop : ℕ → Λ)
  | run (a : TcpServer.Action Λ)

def accepting (s : PooledServer Λ) : TcpServer.Action Λ → Option ℕ
  | .step l input =>
    if (s.server.ops l).head? = some .newConnection then input.accepted.map Prod.fst else none
  | _ => none

def picking (sockfd : ℕ) (loop : Λ) : TcpServer.Action Λ → TcpServer.Action Λ
  | .step l input => .step l { input with accepted := some (sockfd, loop) }
  | a => a

def Hears (s : PooledServer Λ) : Active → Prop
  | .acceptor => s.started_ ≠ 0
  | .conn _ _ => True

instance (s : PooledServer Λ) : (a : Active) → Decidable (s.Hears a)
  | .acceptor => inferInstanceAs (Decidable (s.started_ ≠ 0))
  | .conn _ _ => inferInstanceAs (Decidable True)

def Listens (s : PooledServer Λ) : TcpServer.Action Λ → Prop
  | .iterate _ active => ∀ a ∈ active, s.Hears a
  | _ => True

instance (s : PooledServer Λ) : (a : TcpServer.Action Λ) → Decidable (s.Listens a)
  | .iterate _ active => inferInstanceAs (Decidable (∀ a ∈ active, s.Hears a))
  | .step _ _ => inferInstanceAs (Decidable True)
  | .post _ => inferInstanceAs (Decidable True)
  | .destroy _ _ => inferInstanceAs (Decidable True)

def Fresh (main : Λ) (p : EventLoopThreadPool Λ) (startLoop : ℕ → Λ) : Prop :=
  let handed := (List.range p.numThreads_.toNat).map startLoop
  handed.Nodup ∧ ∀ l, l ∈ handed ↔ l ≠ main

instance (p : EventLoopThreadPool Λ) (startLoop : ℕ → Λ) :
    Decidable (Fresh main p startLoop) := by
  unfold Fresh
  infer_instance

/-- `start` is called from user code of the main thread, fewer than `2 ^ 32` times. -/
def next (main : Λ) (s : PooledServer Λ) : Action Λ → Option (PooledServer Λ)
  | .setThreadNum numThreads =>
    some { s with threadPool_ := s.threadPool_.setThreadNum numThreads }
  | .start startLoop =>
    if s.server.destroying = false ∧ InUserCode (s.server.ops main) ∧ s.started_ + 1 < 2 ^ 32 ∧
        (s.started_ = 0 → Fresh main s.threadPool_ startLoop) then
      some { s with
        started_ := s.started_ + 1
        threadPool_ := if s.started_ = 0 then s.threadPool_.start startLoop else s.threadPool_ }
    else none
  | .run a =>
    if s.Listens a then
      match s.accepting a with
      | none => (TcpServer.next main s.server a).map fun server => { s with server := server }
      | some sockfd => s.threadPool_.getNextLoop.bind fun (loop, pool) =>
          (TcpServer.next main s.server (picking sockfd loop a)).map fun server =>
            { s with server := server, threadPool_ := pool }
    else none

def pooledServer (main : Λ) : System (PooledServer Λ) (Action Λ) where
  init s := (TcpServer.server main).init s.server ∧
    s.threadPool_ = EventLoopThreadPool.construct main ∧ s.started_ = 0
  next := next main

theorem next_server {a : Action Λ} (hn : next main s a = some t) :
    t.server = s.server ∨ ∃ b, TcpServer.next main s.server b = some t.server := by
  cases a with
  | setThreadNum numThreads =>
    cases hn
    exact .inl rfl
  | start startLoop =>
    obtain ⟨-, rfl⟩ := guard_met hn
    exact .inl rfl
  | run a =>
    simp only [next] at hn
    obtain ⟨-, hn⟩ := Option.ite_none_right_eq_some.mp hn
    split at hn
    · obtain ⟨u, hu, rfl⟩ := Option.map_eq_some_iff.mp hn
      exact .inr ⟨a, hu⟩
    · rename_i sockfd _
      obtain ⟨⟨loop, pool⟩, -, hn⟩ := Option.bind_eq_some_iff.mp hn
      obtain ⟨u, hu, rfl⟩ := Option.map_eq_some_iff.mp hn
      exact .inr ⟨picking sockfd loop a, hu⟩

/-- So whatever holds of the server in every run holds of it with its pool. -/
theorem server_reachable (h : (pooledServer main).Reachable Any s) :
    (TcpServer.server main).Reachable Any s.server :=
  h.simulate PooledServer.server (fun _ (first : (pooledServer main).init _) => first.1)
    fun s _ t _ _ hn => by
    rcases next_server hn with same | ⟨b, step⟩
    · exact same ▸ .refl _
    · exact .single (a := b) trivial step

section Numbers
variable {l : Λ} {op : Op Λ} {input : Input Λ} {u v : State Λ} {r : State Λ × List (Op Λ)}

omit [DecidableEq Λ] [Fintype Λ] in
theorem releases_only (held : List ℕ) :
    Op.newConnection ∉ held.map (Op.release (Λ := Λ)) := by simp

omit [Fintype Λ] in
theorem call_numbers (u : State Λ) (f : TcpServer.Functor) :
    (u.call f).1.nextConnId_ = u.nextConnId_ ∧ Op.newConnection ∉ (u.call f).2 := by
  cases f with
  | connectEstablished k => exact ⟨rfl, by simp [State.call, State.connectEstablished]⟩
  | connectDestroyed k =>
    simp only [State.call, State.connectDestroyed]
    split_ifs <;> exact ⟨rfl, by simp⟩
  | removeConnectionInLoop k =>
    exact ⟨((u.record (.removeConnectionInLoop k)).erase_frame k).2.2.2.1,
      by simp [State.call, State.removeConnectionInLoop]⟩
  | notify k => exact ⟨rfl, by simp [State.call]⟩
  | task => exact ⟨rfl, by simp [State.call]⟩

omit [Fintype Λ] in
theorem perform_numbers (hp : u.perform main l input op = some r)
    (plain : op = .newConnection → input.accepted = none) :
    r.1.nextConnId_ = u.nextConnId_ ∧ Op.newConnection ∉ r.2 := by
  cases op with
  | callback k =>
    cases hp
    obtain ⟨frame, called⟩ := u.callback_spec k input
    refine ⟨frame.nextConnId_, fun mem => ?_⟩
    cases called _ mem
  | call f =>
    cases hp
    exact call_numbers u f
  | runInLoop loop f =>
    cases hp
    refine ⟨rfl, fun mem => ?_⟩
    rcases List.mem_cons.mp mem with first | rest
    · split_ifs at first
    · exact releases_only _ rest
  | queueInLoop loop f =>
    cases hp
    refine ⟨rfl, fun mem => ?_⟩
    rcases List.mem_cons.mp mem with first | rest
    · cases first
    · exact releases_only _ rest
  | handleEvent k revents =>
    cases hp
    unfold State.handleEvent
    split_ifs
    · refine ⟨rfl, fun mem => ?_⟩
      rcases List.mem_append.mp mem with body | last
      · rcases State.handleEventWithGuard_spec k revents _ body with h | h | h <;> cases h
      · simp at last
    · exact ⟨rfl, List.not_mem_nil⟩
  | handleRead k =>
    cases hp
    unfold State.handleRead
    split_ifs <;> exact ⟨rfl, by simp⟩
  | handleWrite k =>
    cases hp
    unfold State.handleWrite
    split_ifs <;> exact ⟨rfl, by simp⟩
  | handleClose k =>
    cases hp
    exact ⟨rfl, by simp [State.handleClose]⟩
  | removeConnection k =>
    cases hp
    exact ⟨rfl, by simp [State.removeConnection]⟩
  | newConnection =>
    simp only [State.perform, plain rfl] at hp
    cases hp
    exact ⟨rfl, List.not_mem_nil⟩
  | doPendingFunctors =>
    cases hp
    refine ⟨rfl, fun mem => ?_⟩
    rcases List.mem_append.mp mem with called | released
    · simp at called
    · exact releases_only _ released
  | destroyItem k =>
    cases hp
    unfold State.destroyItem
    split_ifs <;> exact ⟨rfl, by simp⟩
  | join loop =>
    obtain ⟨-, rfl⟩ := guard_met hp
    exact ⟨rfl, releases_only _⟩
  | _ =>
    cases hp
    exact ⟨rfl, List.not_mem_nil⟩

end Numbers

section Assignment

structure Assigned (main : Λ) (s : PooledServer Λ) : Prop where
  base : s.threadPool_.baseLoop_ = main
  born : 1 ≤ s.server.nextConnId_
  turned : s.threadPool_.Turned (s.server.nextConnId_ - 1)
  loops : ∀ k, 1 ≤ k → k < s.server.nextConnId_ →
    turn s.threadPool_.getAllLoops (k - 1) = some (s.server.conns k).ioLoop
  unstarted : s.started_ = 0 → s.threadPool_.loops_ = [] ∧ s.server.nextConnId_ = 1 ∧
    ∀ l, Op.newConnection ∉ s.server.ops l
  started : s.started_ ≠ 0 → s.threadPool_.loops_.Nodup ∧
    ∀ l, l ∈ s.threadPool_.loops_ ↔ l ≠ main

theorem Assigned.initial (h : (pooledServer main).init s) : Assigned main s := by
  obtain ⟨⟨-, first, -, -, -, quiet⟩, pool, unstarted⟩ := h
  refine ⟨by rw [pool]; rfl, by omega, ?_, fun k low high => by omega, fun _ => ?_,
    fun started => absurd unstarted started⟩
  · rw [pool, first]
    rfl
  · refine ⟨by rw [pool]; rfl, first, fun l => ?_⟩
    rw [(quiet l).1]
    exact List.not_mem_nil

omit [DecidableEq Λ] [Fintype Λ] in
theorem Assigned.start {startLoop : ℕ → Λ} (h : Assigned main s) (unstarted : s.started_ = 0)
    (fresh : Fresh main s.threadPool_ startLoop) :
    Assigned main { s with
      started_ := s.started_ + 1
      threadPool_ := s.threadPool_.start startLoop } := by
  obtain ⟨empty, first, -⟩ := h.unstarted unstarted
  have loops : (s.threadPool_.start startLoop).loops_ =
      (List.range s.threadPool_.numThreads_.toNat).map startLoop := by
    rw [EventLoopThreadPool.start, empty, List.nil_append]
  have zero : s.threadPool_.next_ = 0 := by
    have turned := h.turned
    rwa [EventLoopThreadPool.Turned, first, Nat.zero_mod] at turned
  refine ⟨h.base, h.born, ?_, fun k low high => ?_, fun none_ => ?_, fun _ => ?_⟩
  · simp only [EventLoopThreadPool.Turned, first, Nat.sub_self, Nat.zero_mod]
    exact zero
  · change k < s.server.nextConnId_ at high
    omega
  · exact absurd none_ (Nat.succ_ne_zero _)
  · change (s.threadPool_.start startLoop).loops_.Nodup ∧
      ∀ l, l ∈ (s.threadPool_.start startLoop).loops_ ↔ l ≠ main
    rw [loops]
    exact fresh

omit [DecidableEq Λ] [Fintype Λ] in
theorem Assigned.quiet {u : State Λ} (h : Assigned main s) (grown : Grown s.server u)
    (same : u.nextConnId_ = s.server.nextConnId_)
    (unheard : s.started_ = 0 → ∀ l, Op.newConnection ∉ u.ops l) :
    Assigned main { s with server := u } where
  base := h.base
  born := same ▸ h.born
  turned := same ▸ h.turned
  loops k low high := by
    have old : k < s.server.nextConnId_ := same ▸ high
    exact (grown.2 k old).symm ▸ h.loops k low old
  unstarted none_ := ⟨(h.unstarted none_).1, same ▸ (h.unstarted none_).2.1, unheard none_⟩
  started := h.started

omit [DecidableEq Λ] [Fintype Λ] in
theorem Assigned.accept {u : State Λ} {pool : EventLoopThreadPool Λ} {loop : Λ}
    (h : Assigned main s) (grown : Grown s.server u)
    (more : u.nextConnId_ = s.server.nextConnId_ + 1)
    (own : (u.conns s.server.nextConnId_).ioLoop = loop)
    (picked : s.threadPool_.getNextLoop = some (loop, pool)) (running : s.started_ ≠ 0) :
    Assigned main { s with server := u, threadPool_ := pool } := by
  obtain ⟨first, next_, also, turned, moved, loops, base⟩ := h.turned.getNextLoop
  obtain ⟨rfl, rfl⟩ : first = loop ∧ next_ = pool := by
    simpa only [picked, Option.some.injEq, Prod.mk.injEq, eq_comm] using also
  have all : next_.getAllLoops = s.threadPool_.getAllLoops := by
    rw [EventLoopThreadPool.getAllLoops, EventLoopThreadPool.getAllLoops, loops, base]
  have born := h.born
  refine ⟨base.trans h.base, ?_, ?_, fun k low high => ?_, fun none_ => absurd none_ running,
    fun _ => loops ▸ h.started running⟩
  · change 1 ≤ u.nextConnId_
    omega
  · change next_.Turned (u.nextConnId_ - 1)
    rw [more, show s.server.nextConnId_ + 1 - 1 = s.server.nextConnId_ - 1 + 1 by omega]
    exact moved
  · change turn next_.getAllLoops (k - 1) = some (u.conns k).ioLoop
    change k < u.nextConnId_ at high
    rw [all]
    by_cases last : k = s.server.nextConnId_
    · rw [last, own]
      exact turned
    · have old : k < s.server.nextConnId_ := by omega
      rw [grown.2 k old]
      exact h.loops k low old

theorem Assigned.run {a : TcpServer.Action Λ} (h : Assigned main s) (place : InPlace main s.server)
    (hn : next main s (.run a) = some t) : Assigned main t := by
  simp only [next] at hn
  obtain ⟨listens, hn⟩ := Option.ite_none_right_eq_some.mp hn
  split at hn
  · rename_i plain
    obtain ⟨u, hu, rfl⟩ := Option.map_eq_some_iff.mp hn
    have grown := place.grown hu
    cases a with
    | iterate l active =>
      obtain ⟨-, rfl⟩ := guard_met hu
      refine h.quiet grown rfl fun none_ => ?_
      refine forall_update (P := fun _ ops => Op.newConnection ∉ ops) (h.unstarted none_).2.2 ?_
      intro mem
      rcases List.mem_append.mp mem with front | last
      · obtain ⟨a, ha, same⟩ := List.mem_map.mp front
        cases a with
        | acceptor => exact listens _ ha none_
        | conn k revents => cases same
      · simp at last
    | step l input =>
      obtain ⟨op, rest, r, now, hp, rfl⟩ := next_step hu
      have nothing : op = .newConnection → input.accepted = none := fun same => by
        subst same
        simpa [accepting, now] using plain
      obtain ⟨same, called⟩ := perform_numbers hp nothing
      refine h.quiet grown same fun none_ => ?_
      have old := (h.unstarted none_).2.2
      refine forall_update (P := fun _ ops => Op.newConnection ∉ ops) old fun mem => ?_
      rcases List.mem_append.mp mem with new | later
      · exact called new
      · exact old l (now ▸ List.mem_cons_of_mem op later)
    | post l =>
      cases hu
      exact h.quiet grown rfl fun none_ => (h.unstarted none_).2.2
    | destroy order threads =>
      obtain ⟨-, rfl⟩ := guard_met hu
      refine h.quiet grown rfl fun none_ => ?_
      refine forall_update (P := fun _ ops => Op.newConnection ∉ ops) (h.unstarted none_).2.2 ?_
      intro mem
      rcases List.mem_append.mp mem with new | old
      · exact teardown_spec (P := fun op => Op.newConnection ≠ op) order threads
          (fun _ => by simp) (fun _ => by simp) _ new rfl
      · exact (h.unstarted none_).2.2 main old
  · rename_i sockfd accepts
    obtain ⟨⟨loop, pool⟩, picked, hn⟩ := Option.bind_eq_some_iff.mp hn
    obtain ⟨u, hu, rfl⟩ := Option.map_eq_some_iff.mp hn
    cases a with
    | step l input =>
      obtain ⟨first, -⟩ := Option.ite_none_right_eq_some.mp accepts
      have grown := place.grown hu
      obtain ⟨op, rest, r, now, hp, rfl⟩ := next_step hu
      obtain rfl : op = .newConnection := by simpa [now] using first
      obtain ⟨-, rfl⟩ := guard_met hp
      have own : Function.update s.server.conns s.server.nextConnId_ ⟨loop, sockfd, .kConnecting⟩
          s.server.nextConnId_ = ⟨loop, sockfd, .kConnecting⟩ := Function.update_self ..
      exact h.accept grown rfl (congrArg Conn.ioLoop own) picked fun none_ =>
        (h.unstarted none_).2.2 l (now ▸ List.mem_cons_self)
    | _ => cases accepts

theorem assigned (h : (pooledServer main).Reachable Any s) : Assigned main s :=
  h.invariant_under (I := fun s => InPlace main s.server)
    (fun _ reached => inPlace (server_reachable reached)) (fun _ => Assigned.initial)
    fun s a t place held _ hn => by
      cases a with
      | setThreadNum numThreads =>
        cases hn
        exact ⟨held.base, held.born, held.turned, held.loops, held.unstarted, held.started⟩
      | start startLoop =>
        obtain ⟨⟨-, -, -, fresh⟩, rfl⟩ := guard_met hn
        by_cases unstarted : s.started_ = 0
        · rw [if_pos unstarted]
          exact held.start unstarted (fresh unstarted)
        · rw [if_neg unstarted]
          exact ⟨held.base, held.born, held.turned, held.loops,
            fun none_ => absurd none_ (Nat.succ_ne_zero _), fun _ => held.started unstarted⟩
      | run a => exact held.run place hn

def given (s : PooledServer Λ) (l : Λ) : ℕ :=
  Nat.count (fun k => (s.server.conns (k + 1)).ioLoop = l) (s.server.nextConnId_ - 1)

/-- In every run the `k`-th connection lives on the `k`-th loop of the pool, counted round and
round; so the loops' numbers of connections never differ by more than one, and the main loop has
connections only if it is the only loop. -/
theorem connections_spread (h : (pooledServer main).Reachable Any s) :
    (∀ k, 1 ≤ k → k < s.server.nextConnId_ →
      turn s.threadPool_.getAllLoops (k - 1) = some (s.server.conns k).ioLoop) ∧
    (∀ l ∈ s.threadPool_.getAllLoops, ∀ m ∈ s.threadPool_.getAllLoops,
      s.given l ≤ s.given m + 1) ∧
    (s.threadPool_.loops_ ≠ [] → ∀ k, 1 ≤ k → k < s.server.nextConnId_ →
      (s.server.conns k).ioLoop ≠ main) := by
  have held := assigned h
  have nodup : s.threadPool_.getAllLoops.Nodup := by
    unfold EventLoopThreadPool.getAllLoops
    split_ifs with empty
    · exact List.nodup_singleton _
    · exact (held.started fun none_ => empty (held.unstarted none_).1).1
  have counted : ∀ l, s.given l =
      turns s.threadPool_.getAllLoops l (s.server.nextConnId_ - 1) := fun l => by
    rw [given, turns, Nat.count_eq_card_filter_range, Nat.count_eq_card_filter_range]
    refine congrArg Finset.card (Finset.filter_congr fun k hk => ?_)
    have below := Finset.mem_range.mp hk
    have at_ := held.loops (k + 1) (Nat.le_add_left 1 k) (Nat.add_lt_of_lt_sub below)
    rw [Nat.add_sub_cancel] at at_
    rw [at_, Option.some.injEq]
  refine ⟨held.loops, fun l hl m hm => ?_, fun some_ k low high => ?_⟩
  · rw [counted l, counted m]
    exact turns_balanced nodup hl hm
  · have all : s.threadPool_.getAllLoops = s.threadPool_.loops_ := if_neg some_
    have mem := turn_mem (held.loops k low high)
    rw [all] at mem
    exact ((held.started fun none_ => some_ (held.unstarted none_).1).2 _).mp mem

def unstarted : PooledServer (Fin 3) where
  server := ⟨fun _ => ⟨0, 0, .kConnecting⟩, fun _ => 0, 1, [], fun _ _ => none, fun _ => [],
    fun _ => [], fun _ => false, false, []⟩
  threadPool_ := EventLoopThreadPool.construct 0
  started_ := 0

def acceptOne (sockfd : ℕ) : List (Action (Fin 3)) :=
  .run (.step 0 ⟨some (sockfd, 0), -1, false, false, false, 0, false⟩) ::
    List.replicate 6 (.run (.step 0 ⟨none, -1, false, false, false, 0, false⟩))

theorem connections_spread_three : ∃ s, (pooledServer (0 : Fin 3)).Reachable Any s ∧
    (s.server.nextConnId_, [1, 2, 3].map fun k => (s.server.conns k).ioLoop) = (4, [1, 2, 1]) ∧
      ∀ l ∈ s.threadPool_.getAllLoops, ∀ m ∈ s.threadPool_.getAllLoops,
        s.given l ≤ s.given m + 1 := by
  have run : ((pooledServer (0 : Fin 3)).execute Any unstarted
      ([.setThreadNum 2, .start fun i => if i = 0 then 1 else 2,
        .run (.iterate 0 [.acceptor, .acceptor, .acceptor])] ++
        acceptOne 7 ++ acceptOne 8 ++ acceptOne 9)).map
      (fun s => (s.server.nextConnId_, [1, 2, 3].map fun k => (s.server.conns k).ioLoop)) =
      some (4, [1, 2, 1]) := by decide +kernel
  obtain ⟨s, reached, ends⟩ := System.Reachable.of_replay
    (⟨⟨rfl, rfl, rfl, rfl, fun _ => ⟨rfl, rfl⟩, fun _ => ⟨rfl, rfl, rfl, fun _ => rfl⟩⟩, rfl, rfl⟩ :
      (pooledServer (0 : Fin 3)).init unstarted) run
  exact ⟨s, reached, ends, (connections_spread reached).2.1⟩

end Assignment

end PooledServer

end TinyNetwork

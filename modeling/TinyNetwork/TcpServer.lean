import TinyNetwork.PendingWork
import TinyNetwork.TcpConnection
import TinyNetwork.Transition

/-! The server of `net/TcpServer.h` and `net/TcpServer.cc` with its main loop, its sub
loops and the ownership of its connections. A connection is named by the number in its
`name_`; `refs` is the use count behind its `TcpConnectionPtr`s. Each loop's thread has the
operations it still has to run, and a strong pointer on its stack is the `release` still to
come there. One operation touches at most one thing that threads share; what a loop's own
thread alone touches goes with it. Answers of the kernel and what user code does with its
connection are inputs. User code uses a connection in the callbacks it is given it in, on
the thread of its loop, and keeps no pointer: `send` and `shutdown` from other threads, and
the functors with a plain `this` that they queue (`sendInLoop`, `shutdownInLoop`), are left
out. -/
namespace TinyNetwork.TcpServer
open Transition

/-- `notify` is a bound `writeCompleteCallback_` or `highWaterMarkCallback_`, `task` any
functor that holds no connection. -/
inductive Functor where
  | connectEstablished (k : ℕ)
  | connectDestroyed (k : ℕ)
  | removeConnectionInLoop (k : ℕ)
  | notify (k : ℕ)
  | task
  deriving DecidableEq

def Functor.held : Functor → List ℕ
  | .connectEstablished k => [k]
  | .connectDestroyed k => [k]
  | .removeConnectionInLoop k => [k]
  | .notify k => [k]
  | .task => []

/-- `release` is the destructor of a `TcpConnectionPtr`, `callback` a call of the user's
callback with one, and `emplaceBack` the locked part of `queueInLoop`. `destroyItem` is one
round of the loop in `~TcpServer`, and `quit` and `join` end a sub loop's thread. -/
inductive Op (Λ : Type*) where
  | release (k : ℕ)
  | callback (k : ℕ)
  | call (f : Functor)
  | runInLoop (loop : Λ) (f : Functor)
  | queueInLoop (loop : Λ) (f : Functor)
  | emplaceBack (loop : Λ) (f : Functor)
  | handleEvent (k : ℕ) (revents : EventMask)
  | handleRead (k : ℕ)
  | handleWrite (k : ℕ)
  | handleClose (k : ℕ)
  | removeConnection (k : ℕ)
  | remove (k : ℕ)
  | newConnection
  | doPendingFunctors
  | destroyItem (k : ℕ)
  | quit (loop : Λ)
  | join (loop : Λ)
  deriving DecidableEq

/-- What an operation gets from outside: `accept4` and the loop the pool picks, the result
of `readFd`, whether `writeFd` emptied the buffer with a callback to queue, and what user
code does: whether its sends enable writing, how many callbacks they queue, and whether it
calls `shutdown`. -/
structure Input (Λ : Type*) where
  accepted : Option (ℕ × Λ)
  read : ℤ
  drained : Bool
  notifies : Bool
  writing : Bool
  queued : ℕ
  shutdown : Bool

structure Conn (Λ : Type*) where
  ioLoop : Λ
  sockfd : ℕ
  state_ : StateE

inductive Call where
  | removeConnection (k : ℕ)
  | removeConnectionInLoop (k : ℕ)
  deriving DecidableEq

/-- `channels_` are the pollers' maps, as far as they hold channels of connections, and
`connections_` lists the numbers of the entries. `destroying` is set when `~TcpServer`
begins, and `calls` records with each call of the server whether it was set by then. -/
structure State (Λ : Type*) where
  conns : ℕ → Conn Λ
  refs : ℕ → ℕ
  nextConnId_ : ℕ
  connections_ : List ℕ
  channels_ : Λ → ℕ → Option ℕ
  pendingFunctors_ : Λ → List Functor
  ops : Λ → List (Op Λ)
  quit_ : Λ → Bool
  destroying : Bool
  calls : List (Call × Bool)

variable {Λ : Type*} [DecidableEq Λ]

namespace State

def setState (s : State Λ) (k : ℕ) (state : StateE) : State Λ :=
  { s with conns := Function.update s.conns k { s.conns k with state_ := state } }

def setChannel (s : State Λ) (k : ℕ) (entry : Option ℕ) : State Λ :=
  { s with
    channels_ := Function.update s.channels_ (s.conns k).ioLoop
      (Function.update (s.channels_ (s.conns k).ioLoop) (s.conns k).sockfd entry) }

def updateChannel (s : State Λ) (k : ℕ) : State Λ := s.setChannel k (some k)

def retain (s : State Λ) (held : List ℕ) : State Λ :=
  { s with refs := fun k => s.refs k + held.count k }

def release (s : State Λ) (k : ℕ) : State Λ :=
  { s with refs := Function.update s.refs k (s.refs k - 1) }

def record (s : State Λ) (c : Call) : State Λ := { s with calls := s.calls ++ [(c, s.destroying)] }

def callback (s : State Λ) (k : ℕ) (input : Input Λ) : State Λ × List (Op Λ) :=
  if (s.conns k).state_ = .kConnected then
    ((if input.writing then s.updateChannel k else s).setState k
        (if input.shutdown then .kDisconnecting else .kConnected),
      List.replicate input.queued (.queueInLoop (s.conns k).ioLoop (.notify k)))
  else (s, [])

def connectEstablished (s : State Λ) (k : ℕ) : State Λ × List (Op Λ) :=
  (((s.setState k .kConnected).updateChannel k).retain [k], [.callback k, .release k])

def connectDestroyed (s : State Λ) (k : ℕ) : State Λ × List (Op Λ) :=
  if (s.conns k).state_ = .kConnected then
    (((s.setState k .kDisconnected).updateChannel k).retain [k],
      [.callback k, .release k, .remove k])
  else (s, [.remove k])

def erase (s : State Λ) (k : ℕ) : State Λ :=
  if k ∈ s.connections_ then { s.release k with connections_ := s.connections_.erase k } else s

def removeConnectionInLoop (s : State Λ) (k : ℕ) : State Λ × List (Op Λ) :=
  ((s.record (.removeConnectionInLoop k)).erase k,
    [.queueInLoop (s.conns k).ioLoop (.connectDestroyed k)])

def call (s : State Λ) : Functor → State Λ × List (Op Λ)
  | .connectEstablished k => s.connectEstablished k
  | .connectDestroyed k => s.connectDestroyed k
  | .removeConnectionInLoop k => s.removeConnectionInLoop k
  | .notify k => (s, [.callback k])
  | .task => (s, [])

/-- `l` is the calling thread's loop. The functor is the parameter `cb`. -/
def runInLoop (s : State Λ) (l loop : Λ) (f : Functor) : State Λ × List (Op Λ) :=
  (s.retain f.held, (if l = loop then .call f else .queueInLoop loop f) :: f.held.map .release)

def queueInLoop (s : State Λ) (loop : Λ) (f : Functor) : State Λ × List (Op Λ) :=
  (s.retain f.held, .emplaceBack loop f :: f.held.map .release)

def emplaceBack (s : State Λ) (loop : Λ) (f : Functor) : State Λ × List (Op Λ) :=
  ({ s.retain f.held with
      pendingFunctors_ :=
        Function.update s.pendingFunctors_ loop (s.pendingFunctors_ loop ++ [f]) }, [])

def handleEventWithGuard (k : ℕ) (revents : EventMask) : List (Op Λ) :=
  (if revents &&& EPOLLHUP ≠ 0 ∧ revents &&& EPOLLIN = 0 then [.handleClose k] else []) ++
    ((if revents &&& (EPOLLIN ||| EPOLLPRI) ≠ 0 then [.handleRead k] else []) ++
      (if revents &&& EPOLLOUT ≠ 0 then [.handleWrite k] else []))

/-- `tie_.lock()` fails once the connection is gone. The channel is gone with it, so the code may
do anything there; the model goes on without a handler. -/
def handleEvent (s : State Λ) (k : ℕ) (revents : EventMask) : State Λ × List (Op Λ) :=
  if 0 < s.refs k then (s.retain [k], handleEventWithGuard k revents ++ [.release k]) else (s, [])

def handleRead (s : State Λ) (k : ℕ) (n : ℤ) : State Λ × List (Op Λ) :=
  if 0 < n then (s.retain [k], [.callback k, .release k])
  else if n = 0 then (s, [.handleClose k])
  else (s, [])

def handleWrite (s : State Λ) (k : ℕ) (drained notifies : Bool) : State Λ × List (Op Λ) :=
  if drained then
    (s.updateChannel k,
      if notifies then [.queueInLoop (s.conns k).ioLoop (.notify k)] else [])
  else (s, [])

def handleClose (s : State Λ) (k : ℕ) : State Λ × List (Op Λ) :=
  (((s.setState k .kDisconnected).updateChannel k).retain [k],
    [.callback k, .removeConnection k, .release k])

def removeConnection (s : State Λ) (main : Λ) (k : ℕ) : State Λ × List (Op Λ) :=
  (s.record (.removeConnection k), [.runInLoop main (.removeConnectionInLoop k)])

/-- The descriptor from `accept4` is not open in another connection, and none comes once the
acceptor has gone with the server. `nextConnId_` is an `int`, whose overflow is undefined. -/
def newConnection (s : State Λ) : Option (ℕ × Λ) → Option (State Λ × List (Op Λ))
  | none => some (s, [])
  | some (sockfd, ioLoop) =>
    let k := s.nextConnId_
    if (∀ j < k, 0 < s.refs j → (s.conns j).sockfd ≠ sockfd) ∧ k + 1 < 2 ^ 31 ∧
        s.destroying = false then
      some ({ s with
        conns := Function.update s.conns k ⟨ioLoop, sockfd, .kConnecting⟩
        refs := Function.update s.refs k 2
        nextConnId_ := k + 1
        connections_ := k :: s.connections_ },
        [.runInLoop ioLoop (.connectEstablished k), .release k])
    else none

def doPendingFunctors (s : State Λ) (l : Λ) : State Λ × List (Op Λ) :=
  let functors := s.pendingFunctors_ l
  ({ s with pendingFunctors_ := Function.update s.pendingFunctors_ l [] },
    functors.map .call ++ (functors.flatMap Functor.held).map .release)

/-- The copy `conn` takes over the reference of the entry. -/
def destroyItem (s : State Λ) (k : ℕ) : State Λ × List (Op Λ) :=
  if k ∈ s.connections_ then
    ({ s with connections_ := s.connections_.erase k },
      [.runInLoop (s.conns k).ioLoop (.connectDestroyed k), .release k])
  else (s, [])

/-- The thread ends after its loop, and the functors left there are destroyed with it. -/
def join (s : State Λ) (l : Λ) : Option (State Λ × List (Op Λ)) :=
  if s.ops l = [] ∧ s.quit_ l = true then
    some ({ s with pendingFunctors_ := Function.update s.pendingFunctors_ l [] },
      ((s.pendingFunctors_ l).flatMap Functor.held).map .release)
  else none

def perform (main l : Λ) (input : Input Λ) (s : State Λ) : Op Λ → Option (State Λ × List (Op Λ))
  | .release k => some (s.release k, [])
  | .callback k => some (s.callback k input)
  | .call f => some (s.call f)
  | .runInLoop loop f => some (s.runInLoop l loop f)
  | .queueInLoop loop f => some (s.queueInLoop loop f)
  | .emplaceBack loop f => some (s.emplaceBack loop f)
  | .handleEvent k revents => some (s.handleEvent k revents)
  | .handleRead k => some (s.handleRead k input.read)
  | .handleWrite k => some (s.handleWrite k input.drained input.notifies)
  | .handleClose k => some (s.handleClose k)
  | .removeConnection k => some (s.removeConnection main k)
  | .remove k => some (s.setChannel k none, [])
  | .newConnection => s.newConnection input.accepted
  | .doPendingFunctors => some (s.doPendingFunctors l)
  | .destroyItem k => some (s.destroyItem k)
  | .quit loop => some ({ s with quit_ := Function.update s.quit_ loop true }, [])
  | .join loop => s.join loop

end State

section Fields
omit [DecidableEq Λ]

@[simp] theorem State.setState_ioLoop (s : State Λ) (k j : ℕ) (state : StateE) :
    ((s.setState k state).conns j).ioLoop = (s.conns j).ioLoop := by
  by_cases same : j = k
  · subst same
    simp [State.setState]
  · simp [State.setState, Function.update_of_ne same]

@[simp] theorem State.setState_sockfd (s : State Λ) (k j : ℕ) (state : StateE) :
    ((s.setState k state).conns j).sockfd = (s.conns j).sockfd := by
  by_cases same : j = k
  · subst same
    simp [State.setState]
  · simp [State.setState, Function.update_of_ne same]

@[simp] theorem State.setState_self (s : State Λ) (k : ℕ) (state : StateE) :
    ((s.setState k state).conns k).state_ = state := by simp [State.setState]

theorem State.setState_other (s : State Λ) {k j : ℕ} (state : StateE) (other : j ≠ k) :
    ((s.setState k state).conns j).state_ = (s.conns j).state_ := by
  simp [State.setState, Function.update_of_ne other]

theorem State.erase_refs (s : State Λ) {k : ℕ} (live : 0 < s.refs k) (j : ℕ) :
    (s.erase k).refs j ≤ s.refs j ∧
      (s.erase k).refs j + s.connections_.count j =
        s.refs j + (s.erase k).connections_.count j := by
  unfold State.erase
  split_ifs with mem
  · by_cases same : j = k
    · subst same
      have entry := List.count_pos_iff.mpr mem
      simp only [State.release, Function.update_self, List.count_erase_self]
      omega
    · simp [State.release, List.count_erase_of_ne same, Function.update_of_ne same]
  · exact ⟨Nat.le_refl _, rfl⟩

theorem State.erase_frame (s : State Λ) (k : ℕ) :
    (s.erase k).conns = s.conns ∧ (s.erase k).channels_ = s.channels_ ∧
      (s.erase k).destroying = s.destroying ∧ (s.erase k).nextConnId_ = s.nextConnId_ ∧
      (s.erase k).pendingFunctors_ = s.pendingFunctors_ ∧
      ∀ j ∈ s.connections_, j ∈ (s.erase k).connections_ ∨ j = k := by
  unfold State.erase
  split_ifs with mem
  · refine ⟨rfl, rfl, rfl, rfl, rfl, fun j hj => ?_⟩
    by_cases same : j = k
    · exact .inr same
    · exact .inl ((List.mem_erase_of_ne same).mpr hj)
  · exact ⟨rfl, rfl, rfl, rfl, rfl, fun j hj => .inl hj⟩

theorem State.handleEventWithGuard_spec (k : ℕ) (revents : EventMask) :
    ∀ op ∈ State.handleEventWithGuard (Λ := Λ) k revents,
      op = .handleClose k ∨ op = .handleRead k ∨ op = .handleWrite k := by
  intro op mem
  unfold State.handleEventWithGuard at mem
  rcases List.mem_append.mp mem with close | mem
  · split_ifs at close <;> simp_all
  · rcases List.mem_append.mp mem with read | write
    · split_ifs at read <;> simp_all
    · split_ifs at write <;> simp_all

end Fields

structure Frame (s t : State Λ) : Prop where
  refs : t.refs = s.refs
  connections_ : t.connections_ = s.connections_
  nextConnId_ : t.nextConnId_ = s.nextConnId_
  pendingFunctors_ : t.pendingFunctors_ = s.pendingFunctors_

theorem State.setChannel_apply (s : State Λ) (k : ℕ) (entry : Option ℕ) (l : Λ) (fd : ℕ) :
    (s.setChannel k entry).channels_ l fd =
      if l = (s.conns k).ioLoop ∧ fd = (s.conns k).sockfd then entry else s.channels_ l fd := by
  unfold State.setChannel
  by_cases loop : l = (s.conns k).ioLoop
  · subst loop
    by_cases file : fd = (s.conns k).sockfd
    · simp [file]
    · simp [file]
  · simp [loop]

theorem State.updateChannel_self (s : State Λ) {k : ℕ}
    (mapped : s.channels_ (s.conns k).ioLoop (s.conns k).sockfd = some k) :
    s.updateChannel k = s := by
  rw [State.updateChannel, State.setChannel, ← mapped, Function.update_eq_self,
    Function.update_eq_self]

theorem State.callback_spec (s : State Λ) (k : ℕ) (input : Input Λ) :
    Frame s (s.callback k input).1 ∧
      ∀ op ∈ (s.callback k input).2, op = .queueInLoop (s.conns k).ioLoop (.notify k) := by
  unfold State.callback
  split_ifs <;> exact ⟨⟨rfl, rfl, rfl, rfl⟩, by simp⟩

section Bystanders
omit [DecidableEq Λ]

structure Passive (s t : State Λ) : Prop where
  conns : t.conns = s.conns
  channels_ : t.channels_ = s.channels_
  pendingFunctors_ : t.pendingFunctors_ = s.pendingFunctors_
  nextConnId_ : t.nextConnId_ = s.nextConnId_
  quit_ : t.quit_ = s.quit_

theorem State.handleEvent_passive (s : State Λ) (k : ℕ) (revents : EventMask) :
    Passive s (s.handleEvent k revents).1 := by
  unfold State.handleEvent
  split_ifs <;> exact ⟨rfl, rfl, rfl, rfl, rfl⟩

theorem State.handleRead_passive (s : State Λ) (k : ℕ) (n : ℤ) :
    Passive s (s.handleRead k n).1 := by
  unfold State.handleRead
  split_ifs <;> exact ⟨rfl, rfl, rfl, rfl, rfl⟩

theorem State.destroyItem_passive (s : State Λ) (k : ℕ) : Passive s (s.destroyItem k).1 := by
  unfold State.destroyItem
  split_ifs <;> exact ⟨rfl, rfl, rfl, rfl, rfl⟩

theorem State.removeConnectionInLoop_passive (s : State Λ) (k : ℕ) :
    Passive s (s.removeConnectionInLoop k).1 := by
  unfold State.removeConnectionInLoop State.erase
  split_ifs <;> exact ⟨rfl, rfl, rfl, rfl, rfl⟩

theorem State.newConnection_cases {s : State Λ} {accepted : Option (ℕ × Λ)}
    {r : State Λ × List (Op Λ)} (hn : s.newConnection accepted = some r) :
    r = (s, []) ∨ ∃ sockfd ioLoop, accepted = some (sockfd, ioLoop) ∧
      r = ({ s with
        conns := Function.update s.conns s.nextConnId_ ⟨ioLoop, sockfd, .kConnecting⟩
        refs := Function.update s.refs s.nextConnId_ 2
        nextConnId_ := s.nextConnId_ + 1
        connections_ := s.nextConnId_ :: s.connections_ },
        [.runInLoop ioLoop (.connectEstablished s.nextConnId_), .release s.nextConnId_]) := by
  cases accepted with
  | none => exact .inl (Option.some.inj hn).symm
  | some pair =>
    obtain ⟨-, rfl⟩ := guard_met hn
    exact .inr ⟨pair.1, pair.2, rfl, rfl⟩

end Bystanders

theorem State.callback_sockfd (s : State Λ) (k j : ℕ) (input : Input Λ) :
    ((s.callback k input).1.conns j).sockfd = (s.conns j).sockfd := by
  unfold State.callback
  split_ifs
  · exact State.setState_sockfd (s.updateChannel k) ..
  · exact State.setState_sockfd (s.updateChannel k) ..
  · exact s.setState_sockfd ..
  · exact s.setState_sockfd ..
  · rfl

inductive Active where
  | acceptor
  | conn (k : ℕ) (revents : EventMask)

def Active.op : Active → Op Λ
  | .acceptor => .newConnection
  | .conn k revents => .handleEvent k revents

def Active.Reported (main l : Λ) (s : State Λ) : Active → Prop
  | .acceptor => l = main ∧ s.destroying = false
  | .conn k _ => (s.conns k).ioLoop = l ∧ s.channels_ l (s.conns k).sockfd = some k

instance (main l : Λ) (s : State Λ) (a : Active) : Decidable (a.Reported main l s) := by
  cases a <;> unfold Active.Reported <;> infer_instance

def InUserCode : List (Op Λ) → Prop
  | [] => True
  | .callback _ :: _ => True
  | .call .task :: _ => True
  | _ => False

instance (ops : List (Op Λ)) : Decidable (InUserCode ops) := by
  unfold InUserCode
  split <;> infer_instance

/-- `iterate` is one round of `EventLoop::loop`, `post` queues a functor without connection
from anywhere, and `destroy` is the main thread's `~TcpServer`, which visits `connections_`
and joins the threads of the sub loops in some order. -/
inductive Action (Λ : Type*) where
  | iterate (l : Λ) (active : List Active)
  | step (l : Λ) (input : Input Λ)
  | post (l : Λ)
  | destroy (order : List ℕ) (threads : List Λ)

variable [Fintype Λ]

def next (main : Λ) (s : State Λ) : Action Λ → Option (State Λ)
  | .iterate l active =>
    if s.ops l = [] ∧ s.quit_ l = false ∧ ∀ a ∈ active, a.Reported main l s then
      some { s with
        ops := Function.update s.ops l (active.map Active.op ++ [.doPendingFunctors]) }
    else none
  | .step l input =>
    match s.ops l with
    | [] => none
    | op :: rest =>
      (s.perform main l input op).map fun (t, called) =>
        { t with ops := Function.update s.ops l (called ++ rest) }
  | .post l =>
    some { s with
      pendingFunctors_ :=
        Function.update s.pendingFunctors_ l (s.pendingFunctors_ l ++ [.task]) }
  | .destroy order threads =>
    if s.destroying = false ∧ InUserCode (s.ops main) ∧ order.Perm s.connections_ ∧
        threads.Nodup ∧ ∀ l, l ∈ threads ↔ l ≠ main then
      some { s with
        destroying := true
        ops := Function.update s.ops main
          (order.map .destroyItem ++ threads.flatMap (fun l => [.quit l, .join l]) ++
            s.ops main) }
    else none

theorem next_step {main l : Λ} {s t : State Λ} {input : Input Λ}
    (hn : next main s (.step l input) = some t) :
    ∃ op rest r, s.ops l = op :: rest ∧ s.perform main l input op = some r ∧
      t = { r.1 with ops := Function.update s.ops l (r.2 ++ rest) } := by
  simp only [next] at hn
  cases now : s.ops l with
  | nil => simp [now] at hn
  | cons op rest =>
    simp only [now] at hn
    obtain ⟨r, hp, rfl⟩ := Option.map_eq_some_iff.mp hn
    exact ⟨op, rest, r, rfl, hp, rfl⟩

omit [DecidableEq Λ] [Fintype Λ] in
theorem round_spec {P : Op Λ → Prop} {active : List Active} (reported : ∀ a ∈ active, P a.op)
    (last : P .doPendingFunctors) : ∀ op ∈ active.map Active.op ++ [.doPendingFunctors], P op := by
  intro op mem
  rcases List.mem_append.mp mem with front | final
  · obtain ⟨a, ha, rfl⟩ := List.mem_map.mp front
    exact reported a ha
  · exact List.mem_singleton.mp final ▸ last

omit [DecidableEq Λ] [Fintype Λ] in
theorem teardown_spec {P : Op Λ → Prop} (order : List ℕ) (threads : List Λ)
    (items : ∀ k, P (.destroyItem k)) (ends : ∀ l, P (.quit l) ∧ P (.join l)) :
    ∀ op ∈ order.map Op.destroyItem ++ threads.flatMap (fun l => [.quit l, .join l]), P op := by
  intro op mem
  rcases List.mem_append.mp mem with item | thread
  · obtain ⟨k, -, rfl⟩ := List.mem_map.mp item
    exact items k
  · obtain ⟨l, -, hl⟩ := List.mem_flatMap.mp thread
    simp only [List.mem_cons, List.not_mem_nil, or_false] at hl
    rcases hl with rfl | rfl
    · exact (ends l).1
    · exact (ends l).2

def server (main : Λ) : System (State Λ) (Action Λ) where
  init s := s.connections_ = [] ∧ s.nextConnId_ = 1 ∧ s.destroying = false ∧ s.calls = [] ∧
    (∀ k, s.refs k = 0 ∧ (s.conns k).state_ = .kConnecting) ∧
    ∀ l, s.ops l = [] ∧ s.pendingFunctors_ l = [] ∧ s.quit_ l = false ∧
      ∀ fd, s.channels_ l fd = none
  next := next main

def idle : Input Λ := ⟨none, -1, false, false, false, 0, false⟩

def vacant (main : Λ) : State Λ where
  conns _ := ⟨main, 0, .kConnecting⟩
  refs _ := 0
  nextConnId_ := 1
  connections_ := []
  channels_ _ _ := none
  pendingFunctors_ _ := []
  ops _ := []
  quit_ _ := false
  destroying := false
  calls := []

theorem vacant_initial (main : Λ) : (server main).init (vacant main) :=
  ⟨rfl, rfl, rfl, rfl, fun _ => ⟨rfl, rfl⟩, fun _ => ⟨rfl, rfl, rfl, fun _ => rfl⟩⟩

def sample : State Bool := vacant true

theorem sample_initial : (server true).init sample := vacant_initial true

def accepting : List (Action Bool) :=
  [.iterate true [.acceptor],
    .step true { (idle : Input Bool) with accepted := some (7, false) }] ++
    List.replicate 7 (.step true idle) ++ [.iterate false []] ++ List.replicate 5 (.step false idle)

def closing : List (Action Bool) :=
  [.iterate false [.conn 1 EPOLLIN], .step false idle,
    .step false { (idle : Input Bool) with read := 0 }]

def hangingUp : List (Action Bool) :=
  [.iterate false [.conn 1 EPOLLHUP]] ++ List.replicate 12 (.step false idle)

end TinyNetwork.TcpServer
